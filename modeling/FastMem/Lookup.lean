import FastMem.SeqInvariant

/-!
# Lookups with nobody else around

What `fm_core_find`, `fm_core_find_next` and `fm_core_scan_next` return on a share
between calls.  A lookup walks one chain of the index and delivers the first slot of
it, or of the part behind its cursor, that holds an ACTIVE row equal to the search key;
a scan delivers the next ACTIVE slot.  None of them changes the share.

The chain of the search key's bucket and the walk over all slots are two ways to the
same rows, as long as equal keys have equal hashes.
-/

namespace FastMem

open Conc

variable {n : Nat} {W PK : Type} {cfg : ShareCfg n W PK} {t : Nat} {s s' : Share n W} {C : Index}

/-- The bucket of a packed key. -/
def ShareCfg.packedBucket (cfg : ShareCfg n W PK) (k : Nat) (pk : PK) : Nat :=
  (cfg.keydef k).bucket ((cfg.keydef k).ops.hashKey pk)

/-- Slot `i` holds an ACTIVE row that compares equal to the packed key. -/
def Matches (cfg : ShareCfg n W PK) (s : Share n W) (k : Nat) (pk : PK) (i : Int) : Prop :=
  s.state i = .active ∧ (cfg.keydef k).ops.cmpRecKey (s.data i) pk = 0

instance (cfg : ShareCfg n W PK) (s : Share n W) (k : Nat) (pk : PK) :
    DecidablePred (Matches cfg s k pk) :=
  fun _ => inferInstanceAs (Decidable (_ ∧ _))

/-- What a lookup returns that stops at the given slot, or finds nothing. -/
def lookupResult (s : Share n W) (buf : Image n W) : Option Int → Rc × Image n W × Int
  | some i => (.ok, s.data i, i)
  | none => (.notFound, buf, nullSlot)

/-- The part of a chain behind a cursor; nothing, if the cursor is not in the chain. -/
def behind (cur : Int) (L : List Int) : List Int := (L.dropWhile (· ≠ cur)).tail

/-- Nothing is behind a cursor in an empty chain. -/
@[simp] theorem behind_nil (cur : Int) : behind cur [] = [] := rfl

/-- Behind the first slot is the rest of the chain. -/
@[simp] theorem behind_self (cur : Int) (L : List Int) : behind cur (cur :: L) = L := by
  simp [behind]

/-- A slot that is not the cursor is passed. -/
theorem behind_cons {cur i : Int} (h : i ≠ cur) (L : List Int) :
    behind cur (i :: L) = behind cur L := by
  simp [behind, h]

/-- Behind a slot of the chain is what follows it. -/
theorem behind_append {cur : Int} {pre : List Int} (h : cur ∉ pre) (post : List Int) :
    behind cur (pre ++ cur :: post) = post := by
  induction pre with
  | nil => exact behind_self cur post
  | cons i pre ih =>
      have hne : i ≠ cur := fun heq => h (by simp [heq])
      rw [List.cons_append, behind_cons hne]
      exact ih fun hmem => h (List.mem_cons_of_mem i hmem)

/-- Behind a slot that is not in the chain there is nothing. -/
theorem behind_of_notMem {cur : Int} {L : List Int} (h : cur ∉ L) : behind cur L = [] := by
  induction L with
  | nil => rfl
  | cons i L ih =>
      have hne : i ≠ cur := fun heq => h (by simp [heq])
      rw [behind_cons hne]
      exact ih fun hmem => h (List.mem_cons_of_mem i hmem)

/-- What is behind a cursor is the end of the chain. -/
theorem behind_suffix (cur : Int) (L : List Int) : List.IsSuffix (behind cur L) L :=
  (List.tail_suffix _).trans (List.dropWhile_suffix _)

/-- One step of a walk that reads the slot it stands at. -/
theorem runs_visit (heven : ∀ i, s.seq i % 2 = 0) (k : Nat) (pk : PK) (h : Int) (buf : Image n W)
    {rest : Image n W → Core n W PK (Rc × Image n W × Int)} {r : Option Int}
    (hrest : ∀ buf, ∃ buf', (machine cfg).Runs t (rest buf) s (lookupResult s buf' r) s) :
    ∃ buf', (machine cfg).Runs t (do
        let (rc, buf) ← readRow h false 0 buf
        if rc = .ok ∧ (cfg.keydef k).ops.cmpRecKey buf pk = 0 then pure (.ok, buf,
          h) else rest buf) s
      (lookupResult s buf' (if Matches cfg s k pk h then some h else r)) s := by
  by_cases hactive : s.state h = .active
  · by_cases hcmp : (cfg.keydef k).ops.cmpRecKey (s.data h) pk = 0
    · have hmatch : Matches cfg s k pk h := ⟨hactive, hcmp⟩
      refine ⟨buf, runs_then (runs_readRow (heven h) hactive (by simp) buf) ?_⟩
      rw [if_pos hmatch]
      show (machine cfg).Runs t (if Rc.ok = .ok ∧ _ then _ else _) s _ s
      rw [if_pos ⟨rfl, hcmp⟩]
      exact runs_pure
    · have hmatch : ¬ Matches cfg s k pk h := fun hm => hcmp hm.2
      obtain ⟨buf', hruns⟩ := hrest (s.data h)
      refine ⟨buf', runs_then (runs_readRow (heven h) hactive (by simp) buf) ?_⟩
      rw [if_neg hmatch]
      show (machine cfg).Runs t (if Rc.ok = .ok ∧ _ then _ else _) s _ s
      rw [if_neg fun h0 => hcmp h0.2]
      exact hruns
  · have hmatch : ¬ Matches cfg s k pk h := fun hm => hactive hm.1
    obtain ⟨buf', hruns⟩ := hrest buf
    refine ⟨buf', runs_then (runs_readRow_gone buf (Or.inl hactive)) ?_⟩
    rw [if_neg hmatch]
    show (machine cfg).Runs t (if Rc.deleted = .ok ∧ _ then _ else _) s _ s
    rw [if_neg (by simp)]
    exact hruns

/-- The first slot of a list with a property, one slot at a time. -/
theorem find?_cons_ite (p : Int → Prop) [DecidablePred p] (i : Int) (L : List Int) :
    (i :: L).find? (p ·) = if p i then some i else L.find? (p ·) := by
  by_cases hi : p i <;> simp [hi]

/-- A walk returns the first match of the chain. -/
theorem runs_findWalk (cfg : ShareCfg n W PK) (t : Nat) (heven : ∀ i, s.seq i % 2 = 0) (k : Nat)
    (pk : PK) {L : List Int} {h : Int} (hL : IsChain nullSlot (s.next k) h L) (buf : Image n W) :
    ∃ buf', (machine cfg).Runs t (loop (.findWalk k pk buf h)) s
      (lookupResult s buf' (L.find? (Matches cfg s k pk ·))) s := by
  induction L generalizing h buf with
  | nil =>
      have hnull : h = nullSlot := hL
      refine ⟨buf, runs_loop ?_⟩
      show (machine cfg).Runs t (findBody cfg k pk buf h) s _ s
      rw [findBody, if_pos hnull]
      exact runs_pure
  | cons i L ih =>
      obtain ⟨rfl, hne, hrest⟩ := hL
      have hnext : ∀ buf, ∃ buf', (machine cfg).Runs t (do
          let nx ← access (.loadNext k h)
          loop (.findWalk k pk buf nx)) s
          (lookupResult s buf' (L.find? (Matches cfg s k pk ·))) s := by
        intro buf
        obtain ⟨buf', hruns⟩ := ih hrest buf
        exact ⟨buf', runs_access rfl hruns⟩
      obtain ⟨buf', hruns⟩ := runs_visit heven k pk h buf hnext
      refine ⟨buf', runs_loop ?_⟩
      show (machine cfg).Runs t (findBody cfg k pk buf h) s _ s
      rw [findBody, if_neg hne, find?_cons_ite]
      exact hruns

/-- The walk of `fm_core_find_next`, before and behind the cursor. -/
theorem runs_findNextWalk (cfg : ShareCfg n W PK) (t : Nat) (heven : ∀ i, s.seq i % 2 = 0) (k : Nat)
    (pk : PK) (cur : Int) {L : List Int} {h : Int} (hL : IsChain nullSlot (s.next k) h L)
    (after : Bool) (hcur : after = true → cur ∉ L) (buf : Image n W) :
    ∃ buf', (machine cfg).Runs t (loop (.findNextWalk k pk cur after buf h)) s
      (lookupResult s buf' ((if after then L else behind cur L).find? (Matches cfg s k pk ·)))
      s := by
  induction L generalizing h buf after with
  | nil =>
      have hnull : h = nullSlot := hL
      refine ⟨buf, runs_loop ?_⟩
      show (machine cfg).Runs t (findNextBody cfg k pk cur after buf h) s _ s
      rw [findNextBody, if_pos hnull]
      cases after <;> exact runs_pure
  | cons i L ih =>
      have hnodup := hL.nodup
      obtain ⟨rfl, hne, hrest⟩ := hL
      by_cases hcurrent : h = cur
      · -- the cursor itself: what follows is behind it
        subst hcurrent
        have hnot : h ∉ L := (List.nodup_cons.mp hnodup).1
        have hbefore : after = false := by
          cases after with
          | false => rfl
          | true => exact absurd List.mem_cons_self (hcur rfl)
        obtain ⟨buf', hruns⟩ := ih hrest true (fun _ => hnot) buf
        refine ⟨buf', runs_loop ?_⟩
        show (machine cfg).Runs t (findNextBody cfg k pk h after buf h) s _ s
        rw [findNextBody, if_neg hne, if_pos rfl, hbefore]
        simp only [Bool.false_eq_true, if_false, behind_self]
        exact runs_access rfl hruns
      · have hnext : ∀ buf, ∃ buf', (machine cfg).Runs t (do
            let nx ← access (.loadNext k h)
            loop (.findNextWalk k pk cur after buf nx)) s
            (lookupResult s buf' ((if after then L else behind cur L).find? (Matches cfg s k pk ·)))
            s := by
          intro buf
          obtain ⟨buf', hruns⟩ :=
            ih hrest after (fun ha hmem => hcur ha (List.mem_cons_of_mem h hmem)) buf
          exact ⟨buf', runs_access rfl hruns⟩
        cases after with
        | false =>
            obtain ⟨buf', hruns⟩ := hnext buf
            refine ⟨buf', runs_loop ?_⟩
            show (machine cfg).Runs t (findNextBody cfg k pk cur false buf h) s _ s
            rw [findNextBody, if_neg hne, if_neg hcurrent]
            simp only [Bool.false_eq_true, if_false, behind_cons hcurrent] at hruns ⊢
            exact hruns
        | true =>
            obtain ⟨buf', hruns⟩ := runs_visit heven k pk h buf hnext
            refine ⟨buf', runs_loop ?_⟩
            show (machine cfg).Runs t (findNextBody cfg k pk cur true buf h) s _ s
            rw [findNextBody, if_neg hne, if_neg hcurrent]
            simp only [if_true, find?_cons_ite] at hruns ⊢
            exact hruns

/-- A program that takes a free lock, looks around, and gives it back. -/
theorem runs_under_lock {l : Lock} (hfree : s.owner l = none) {α : Type} {p : Core n W PK α} {x : α}
    (hp : (machine cfg).Runs t p (s.setOwner (some t) l) x (s.setOwner (some t) l)) :
    (machine cfg).Runs t (do
      access (.lock l)
      let r ← p
      access (.unlock l)
      pure r) s x s := by
  refine runs_access (exec_lock hfree) (runs_then hp (runs_access rfl ?_))
  rw [setOwner_none_setOwner hfree]
  exact runs_pure

/-- `fm_core_find` delivers the first match in the chain of the key's bucket. -/
theorem runs_find (hC : s.Indexed C) (heven : ∀ i, s.seq i % 2 = 0) (k : Nat) (pk : PK)
    (hfree : s.owner (.bucket k (cfg.packedBucket k pk)) = none) (buf : Image n W) :
    ∃ buf', (machine cfg).Runs t (find cfg k pk buf) s
      (lookupResult s buf' ((C k (cfg.packedBucket k pk)).find? (Matches cfg s k pk ·))) s := by
  have hchain := hC k (cfg.packedBucket k pk)
  obtain ⟨buf', hruns⟩ := runs_findWalk cfg t
    (s := s.setOwner (some t) (.bucket k (cfg.packedBucket k pk))) heven k pk hchain buf
  exact ⟨buf', runs_under_lock hfree (runs_access rfl hruns)⟩

/-- `fm_core_find_next` delivers the first match behind the cursor, and nothing at all
if the cursor is not in the chain. -/
theorem runs_findNext (hC : s.Indexed C) (heven : ∀ i, s.seq i % 2 = 0) (k : Nat) (pk : PK)
    (hfree : s.owner (.bucket k (cfg.packedBucket k pk)) = none) (cur : Int) (buf : Image n W) :
    ∃ buf', (machine cfg).Runs t (findNext cfg k pk cur buf) s
      (lookupResult s buf'
        ((behind cur (C k (cfg.packedBucket k pk))).find? (Matches cfg s k pk ·))) s := by
  have hchain := hC k (cfg.packedBucket k pk)
  obtain ⟨buf', hruns⟩ := runs_findNextWalk cfg t
    (s := s.setOwner (some t) (.bucket k (cfg.packedBucket k pk))) heven k pk cur hchain false
    (fun h => absurd h (by simp)) buf
  exact ⟨buf', runs_under_lock hfree (runs_access rfl hruns)⟩

/-- What a scan returns that stops at slot number `u`, or finds nothing up to `bound`. -/
def scanResult (s : Share n W) (buf : Image n W) (bound : Nat) : Option Nat → Rc × Nat × Image n W
  | some u => (.ok, u + 1, s.data (i32 u))
  | none => (.eof, bound, buf)

/-- A scan returns the first ACTIVE slot from its position on. -/
theorem runs_scanFrom (cfg : ShareCfg n W PK) (t : Nat)
    (heven : ∀ i, s.seq i % 2 = 0) (pos fuel : Nat) (buf : Image n W) :
    ∃ buf', (machine cfg).Runs t (scanFrom pos fuel buf) s (scanResult s buf' (pos + fuel)
      ((List.range' pos fuel).find? (fun u => s.state (i32 u) = .active))) s := by
  induction fuel generalizing pos buf with
  | zero => exact ⟨buf, runs_pure⟩
  | succ fuel ih =>
      rw [List.range'_succ]
      by_cases hactive : s.state (i32 pos) = .active
      · refine ⟨buf, runs_then (runs_readRow (heven _) hactive (by simp) buf) ?_⟩
        rw [List.find?_cons_of_pos (by simpa using hactive)]
        exact runs_pure
      · obtain ⟨buf', hruns⟩ := ih (pos + 1) buf
        refine ⟨buf', runs_then (runs_readRow_gone buf (Or.inl hactive)) ?_⟩
        rw [List.find?_cons_of_neg (by simpa using hactive),
          show pos + (fuel + 1) = pos + 1 + fuel by omega]
        exact hruns

/-- `fm_core_scan_next` delivers the next ACTIVE slot. -/
theorem runs_scanNext (cfg : ShareCfg n W PK) (t : Nat) (heven : ∀ i, s.seq i % 2 = 0) (pos : Nat)
    (buf : Image n W) :
    ∃ buf', (machine cfg).Runs t (scanNext pos buf) s
      (scanResult s buf' (pos + (slotCount s.chunkCnt - pos))
        ((List.range' pos (slotCount s.chunkCnt - pos)).find? (fun u => s.state (i32 u) = .active)))
        s := by
  obtain ⟨buf', hruns⟩ := runs_scanFrom cfg t heven pos (slotCount s.chunkCnt - pos) buf
  exact ⟨buf', runs_access rfl hruns⟩

/-- `fm_core_find` first, then `fm_core_find_next` from the slot it has returned, and so
on: a call of an index scan, whose cursor is the last slot, if any, and the buffer. -/
def lookupCall (cfg : ShareCfg n W PK) (k : Nat) (pk : PK) :
    Option Int × Image n W → Core n W PK (Rc × Image n W × Int)
  | (none, buf) => find cfg k pk buf
  | (some cur, buf) => findNext cfg k pk cur buf

/-- The slot and the image an index scan delivers, until it reports `FM_ERR_NOT_FOUND`. -/
def lookupMore (r : Rc × Image n W × Int) : Option ((Int × Image n W) × Option Int × Image n W) :=
  if r.1 = .notFound then none else some ((r.2.2, r.2.1), some r.2.2, r.2.1)

/-- A call of a table scan, whose cursor is the position and the buffer. -/
def scanCall (c : Nat × Image n W) : Core n W PK (Rc × Nat × Image n W) := scanNext c.1 c.2

/-- The slot and the image a table scan delivers, until it reports `FM_ERR_EOF`. -/
def scanMore (r : Rc × Nat × Image n W) : Option ((Int × Image n W) × Nat × Image n W) :=
  if r.1 = .eof then none else some ((i32 (r.2.1 + 2 ^ 32 - 1), r.2.2), r.2.1, r.2.2)

/-- A slot with its image. -/
def Share.pair (s : Share n W) (i : Int) : Int × Image n W := (i, s.data i)

/-- The part of a chain that an index scan has before it. -/
def ahead (cur : Option Int) (L : List Int) : List Int :=
  match cur with
  | none => L
  | some cur => behind cur L

/-- A call of the lookup returns the first match behind its cursor. -/
theorem runs_lookupCall (hC : s.Indexed C) (heven : ∀ i, s.seq i % 2 = 0) (k : Nat) (pk : PK)
    (hfree : s.owner (.bucket k (cfg.packedBucket k pk)) = none) (c : Option Int × Image n W) :
    ∃ buf', (machine cfg).Runs t (lookupCall cfg k pk c) s
      (lookupResult s buf'
        ((ahead c.1 (C k (cfg.packedBucket k pk))).find? (Matches cfg s k pk ·))) s := by
  obtain ⟨cur, buf⟩ := c
  cases cur with
  | none => exact runs_find hC heven k pk hfree buf
  | some cur => exact runs_findNext hC heven k pk hfree cur buf

/-- The matches behind the first one are what the scan still has before it when it
stands there. -/
theorem filter_behind {L M rest : List Int} (hL : L.Nodup) (hM : List.IsSuffix M L) {p : Int → Prop}
    [DecidablePred p] {i : Int} (hfilter : M.filter (p ·) = i :: rest) :
    M.find? (p ·) = some i ∧ (behind i L).filter (p ·) = rest := by
  obtain ⟨before, rfl⟩ := hM
  obtain ⟨pre, post, rfl, hpre, hi, hpost⟩ := List.filter_eq_cons_iff.mp hfilter
  have hnot : i ∉ before ++ pre := by
    rw [← List.append_assoc] at hL
    intro hmem
    exact (List.nodup_append.mp hL).2.2 i hmem i List.mem_cons_self rfl
  constructor
  · rw [List.find?_append, List.find?_eq_none.mpr hpre, List.find?_cons_of_pos (by exact hi)]
    rfl
  · rw [← List.append_assoc, behind_append hnot]
    exact hpost

/-- What is ahead of a lookup is the end of its chain. -/
theorem ahead_suffix (cur : Option Int) (L : List Int) : List.IsSuffix (ahead cur L) L := by
  cases cur with
  | none => exact List.suffix_refl L
  | some cur => exact behind_suffix cur L

/-- An index scan delivers the matches of the chain, in order. -/
theorem collects_lookup (hC : s.Indexed C) (heven : ∀ i, s.seq i % 2 = 0) (k : Nat) (pk : PK)
    (hfree : s.owner (.bucket k (cfg.packedBucket k pk)) = none) (buf : Image n W) :
    (machine cfg).Collects t (lookupCall cfg k pk) lookupMore (none, buf) s
      (((C k (cfg.packedBucket k pk)).filter (Matches cfg s k pk ·)).map s.pair) s := by
  -- before a cursor are the matches of the chain behind it
  obtain ⟨s', hcollects, rfl⟩ : ∃ s', (machine cfg).Collects t (lookupCall cfg k pk) lookupMore
      (none, buf) s (((C k (cfg.packedBucket k pk)).filter (Matches cfg s k pk ·)).map s.pair) s' ∧
      s' = s := by
    apply Machine.Collects.of_list (fun c s₁ L => s₁ = s ∧
      L = ((ahead c.1 (C k (cfg.packedBucket k pk))).filter (Matches cfg s k pk ·)).map s.pair)
      (· = s)
    · intro c s₁ hat
      obtain ⟨rfl, hL⟩ := hat
      obtain ⟨buf', hruns⟩ := runs_lookupCall hC heven k pk hfree c
      have hempty := List.map_eq_nil_iff.mp hL.symm
      rw [List.find?_eq_none.mpr (List.filter_eq_nil_iff.mp hempty)] at hruns
      exact ⟨_, _, hruns, rfl, rfl⟩
    · intro c s₁ x L hat
      obtain ⟨rfl, hL⟩ := hat
      obtain ⟨buf', hruns⟩ := runs_lookupCall hC heven k pk hfree c
      obtain ⟨i, rest, hfilter, rfl, rfl⟩ := List.map_eq_cons_iff.mp hL.symm
      obtain ⟨hfind, hrest⟩ := filter_behind (hC k _).nodup (ahead_suffix c.1 _) hfilter
      rw [hfind] at hruns
      refine ⟨_, (some i, s₁.data i), _, hruns, rfl, rfl, ?_⟩
      rw [← hrest]
      rfl
    · exact ⟨rfl, rfl⟩
  exact hcollects

/-- The numbers of the slots from `pos` on that are ACTIVE. -/
def activeFrom (s : Share n W) (pos : Nat) : List Nat :=
  (List.range' pos (slotCount s.chunkCnt - pos)).filter fun u => s.state (i32 u) = .active

/-- Behind the first ACTIVE slot from `pos` on are the later ones. -/
theorem activeFrom_cons {pos u : Nat} {rest : List Nat} (h : activeFrom s pos = u :: rest) :
    (List.range' pos (slotCount s.chunkCnt - pos)).find?
    (fun u => s.state (i32 u) = .active) = some u ∧
      activeFrom s (u + 1) = rest := by
  obtain ⟨pre, post, hrange, hpre, hu, hpost⟩ := List.filter_eq_cons_iff.mp h
  have hsplit : pos ≤ u ∧ post = List.range' (u + 1) (slotCount s.chunkCnt - (u + 1)) := by
    obtain ⟨m, hm, rfl, hdrop⟩ := List.range'_eq_append_iff.mp hrange
    obtain ⟨hu, hlen, hpost⟩ := List.range'_eq_cons_iff.mp hdrop.symm
    refine ⟨by omega, ?_⟩
    rw [hpost]
    congr 1
    omega
  constructor
  · rw [hrange, List.find?_append, List.find?_eq_none.mpr hpre,
      List.find?_cons_of_pos (by simpa using hu)]
    rfl
  · rw [← hpost, hsplit.2]
    rfl

/-- A scan from the first slot has all ACTIVE slots before it. -/
theorem mem_activeFrom_zero {u : Nat} :
    u ∈ activeFrom s 0 ↔ u < slotCount s.chunkCnt ∧ s.state (i32 u) = .active := by
  simp [activeFrom, List.mem_range'_1]

/-- A table scan delivers the ACTIVE rows, in the order of their slots. -/
theorem collects_scan (cfg : ShareCfg n W PK) (t : Nat) (heven : ∀ i, s.seq i % 2 = 0) (pos : Nat)
    (buf : Image n W) : (machine cfg).Collects t scanCall scanMore (pos, buf) s
      ((activeFrom s pos).map fun u => s.pair (i32 u)) s := by
  obtain ⟨s', hcollects, rfl⟩ : ∃ s', (machine cfg).Collects t scanCall scanMore (pos, buf) s
      ((activeFrom s pos).map fun u => s.pair (i32 u)) s' ∧ s' = s := by
    apply Machine.Collects.of_list (fun c s₁ L => s₁ = s ∧
      L = (activeFrom s c.1).map fun u => s.pair (i32 u)) (· = s)
    · intro c s₁ hat
      obtain ⟨rfl, hL⟩ := hat
      obtain ⟨buf', hruns⟩ := runs_scanNext cfg t heven c.1 c.2
      have hempty := List.map_eq_nil_iff.mp hL.symm
      rw [List.find?_eq_none.mpr (List.filter_eq_nil_iff.mp hempty)] at hruns
      exact ⟨_, _, hruns, rfl, rfl⟩
    · intro c s₁ x L hat
      obtain ⟨rfl, hL⟩ := hat
      obtain ⟨buf', hruns⟩ := runs_scanNext cfg t heven c.1 c.2
      obtain ⟨u, rest, hactive, rfl, rfl⟩ := List.map_eq_cons_iff.mp hL.symm
      obtain ⟨hfind, hrest⟩ := activeFrom_cons hactive
      rw [hfind] at hruns
      have hslot : i32 (u + 1 + 2 ^ 32 - 1) = i32 u := by
        unfold i32
        rw [show (u + 1 + 2 ^ 32 - 1) % 2 ^ 32 = u % 2 ^ 32 by omega]
      refine ⟨_, (u + 1, s₁.data (i32 u)), _, hruns, ?_, rfl, ?_⟩
      · show some ((i32 (u + 1 + 2 ^ 32 - 1), s₁.data (i32 u)), _) = _
        rw [hslot]
        rfl
      · rw [← hrest]
    · exact ⟨rfl, rfl⟩
  exact hcollects

/-- Equal to a packed key means hashed like it. -/
def KeyRespects (cfg : ShareCfg n W PK) : Prop :=
  ∀ k, k < cfg.keys → ∀ rec pk, (cfg.keydef k).ops.cmpRecKey rec pk = 0 →
    (cfg.keydef k).ops.hashRec rec = (cfg.keydef k).ops.hashKey pk

/-- The chain of the key's bucket holds every match. -/
theorem Consistent.mem_chain_of_matches {F : List Int} {out : Set Int}
    (h : Consistent cfg s C F out) (hagree : KeyRespects cfg) {k : Nat} (hk : k < cfg.keys)
    {pk : PK} {i : Int} (hi : Matches cfg s k pk i) : i ∈ C k (cfg.packedBucket k pk) := by
  refine (h.index_mem k hk _ i).mpr ⟨hi.1, ?_⟩
  unfold ShareCfg.keyBucket ShareCfg.packedBucket
  rw [hagree k hk _ pk hi.2]

/-- Different slots are different pairs. -/
theorem nodup_map_pair {L : List Int} (h : L.Nodup) : (L.map s.pair).Nodup :=
  h.map fun _ _ heq => congrArg Prod.fst heq

/-- A pair is a slot and its image. -/
theorem mem_map_pair {L : List Int} {p : Int × Image n W} :
    p ∈ L.map s.pair ↔ p.1 ∈ L ∧ p.2 = s.data p.1 := by
  rw [List.mem_map]
  constructor
  · rintro ⟨i, hi, rfl⟩
    exact ⟨hi, rfl⟩
  · rintro ⟨hi, hdata⟩
    exact ⟨p.1, hi, Prod.ext rfl hdata.symm⟩

/-- The slots of a share, ACTIVE ones first to last. -/
theorem Consistent.mem_active {F : List Int} {out : Set Int}
    (h : Consistent cfg s C F out) {i : Int} :
    i ∈ (activeFrom s 0).map i32 ↔ s.state i = .active := by
  rw [List.mem_map]
  constructor
  · rintro ⟨u, hu, rfl⟩
    exact (mem_activeFrom_zero.mp hu).2
  · intro hi
    obtain ⟨u, hu, rfl⟩ := h.active_grown i hi
    exact ⟨u, mem_activeFrom_zero.mpr ⟨hu, hi⟩, rfl⟩

/-- The ACTIVE slots are different slots. -/
theorem nodup_active : ((activeFrom s 0).map i32).Nodup := by
  have hnodup : (activeFrom s 0).Nodup := List.Nodup.filter _ List.nodup_range'
  refine (List.nodup_map_iff_inj_on hnodup).mpr fun u hu v hv heq => ?_
  have hcnt : slotCount s.chunkCnt < 2 ^ 32 := Nat.mod_lt _ (by decide)
  have hu := (mem_activeFrom_zero.mp hu).1
  have hv := (mem_activeFrom_zero.mp hv).1
  exact i32_inj (by omega) (by omega) heq

/-- **Lookup equals filtered scan.**  After any sequence of inserts, updates, deletes
and clears, `fm_core_find` succeeds exactly if some ACTIVE row equals the packed key,
and iterating `fm_core_find_next` delivers the rows that a table scan delivers and that
equal the key, each once. -/
theorem lookup_equals_filtered_scan (cfg : ShareCfg n W PK) (t : Nat) (data : Int → Image n W)
    (hhash : HashRespects cfg) (hagree : KeyRespects cfg) (hkeys : cfg.keys ≤ 64) (s : Share n W)
    (h : CallSeq cfg t data s) (k : Nat) (hk : k < cfg.keys) (pk : PK) (u : Nat) (buf : Image n W) :
    (∃ r, (machine cfg).Runs u (find cfg k pk buf) s r s ∧ (r.1 = .ok ∨ r.1 = .notFound) ∧
      (r.1 = .ok ↔ ∃ i, s.state i = .active ∧ (cfg.keydef k).ops.cmpRecKey (s.data i) pk = 0)) ∧
    ∃ found scanned, (machine cfg).Collects u (lookupCall cfg k pk) lookupMore
      (none, buf) s found s ∧ (machine cfg).Collects u scanCall scanMore
      (0, buf) s scanned s ∧ found.Nodup ∧ scanned.Nodup ∧
      (∀ p, p ∈ scanned ↔ s.state p.1 = .active ∧ p.2 = s.data p.1) ∧
      ∀ p, p ∈ found ↔ p ∈ scanned ∧ (cfg.keydef k).ops.cmpRecKey p.2 pk = 0 := by
  have hquiet := h.quiet hhash hkeys
  obtain ⟨C, F, hcons⟩ := hquiet.1
  have hfree := hquiet.bucket k (cfg.packedBucket k pk)
  have hscanned : ∀ p, p ∈ (activeFrom s 0).map (fun u => s.pair (i32 u)) ↔
      s.state p.1 = .active ∧ p.2 = s.data p.1 := by
    intro p
    rw [show (fun u => s.pair (i32 u)) = s.pair ∘ i32 from rfl, ← List.map_map, mem_map_pair,
      hcons.mem_active]
  constructor
  · obtain ⟨buf', hruns⟩ := runs_find (t := u) hcons.index hcons.seq_even k pk hfree buf
    refine ⟨_, hruns, ?_⟩
    cases hfound : (C k (cfg.packedBucket k pk)).find? (Matches cfg s k pk ·) with
    | some i =>
        have hmatch : Matches cfg s k pk i := by simpa using List.find?_some hfound
        exact ⟨Or.inl rfl, fun _ => ⟨i, hmatch⟩, fun _ => rfl⟩
    | none =>
        refine ⟨Or.inr rfl, nofun, ?_⟩
        rintro ⟨i, hi⟩
        have hnot := List.find?_eq_none.mp hfound i (hcons.mem_chain_of_matches hagree hk hi)
        simp [Matches, hi] at hnot
  · refine ⟨_, _, collects_lookup hcons.index hcons.seq_even k pk hfree buf,
      collects_scan cfg u hcons.seq_even 0 buf, ?_, ?_, hscanned, ?_⟩
    · exact nodup_map_pair ((hcons.index k _).nodup.filter _)
    · rw [show (fun u => s.pair (i32 u)) = s.pair ∘ i32 from rfl, ← List.map_map]
      exact nodup_map_pair nodup_active
    · intro p
      rw [hscanned, mem_map_pair, List.mem_filter, decide_eq_true_eq]
      constructor
      · rintro ⟨⟨-, hactive, hcmp⟩, hdata⟩
        rw [hdata]
        exact ⟨⟨hactive, rfl⟩, hcmp⟩
      · rintro ⟨⟨hactive, hdata⟩, hcmp⟩
        rw [hdata] at hcmp
        exact ⟨⟨hcons.mem_chain_of_matches hagree hk ⟨hactive, hcmp⟩, hactive, hcmp⟩, hdata⟩

/-- In the table of words a packed key compares as the word it packs. -/
theorem keyRespects_wordTable (keys : Nat) : KeyRespects (wordTable keys) := by
  intro k _ rec pk hcmp
  have hcmp' : (rec 0 : Int) - pk = 0 := hcmp
  show rec 0 = pk
  omega

/-- A table like `wordTable` whose keys are not unique. -/
def bagTable (keys : Nat) : ShareCfg 1 Nat Nat :=
  { wordTable keys with keydef := fun k => { (wordTable keys).keydef k with unique := false } }

/-- In the bag table images that compare equal have one bucket. -/
theorem hashRespects_bagTable (keys : Nat) : HashRespects (bagTable keys) :=
  hashRespects_wordTable keys

/-- In the bag table a packed key compares as the image it packs. -/
theorem keyRespects_bagTable (keys : Nat) : KeyRespects (bagTable keys) :=
  keyRespects_wordTable keys

/-- Of two equal rows and one more in their bucket the lookup finds the two, and the
scan all three. -/
theorem lookup_equals_filtered_scan_equal_rows :
    ∃ s found scanned, CallSeq (bagTable 1) 0 (fun _ _ => 0) s ∧
      (bagTable 1).keyBucket 0 (fun _ => 3) = (bagTable 1).packedBucket 0 7 ∧
      (machine (bagTable 1)).Collects 1 (lookupCall (bagTable 1) 0 7) lookupMore
      (none, fun _ => 0) s found s ∧ (machine (bagTable 1)).Collects 1 scanCall scanMore
      (0, fun _ => 0) s scanned s ∧ found.Nodup ∧
      (0, fun _ => 7) ∈ found ∧ (2, fun _ => 7) ∈ found ∧ (1, fun _ => 3) ∈ scanned ∧
      (1, fun _ => 3) ∉ found := by
  have heval : (callAllowed (bagTable 1) 0 200 [.insertRow (fun _ => 7) fun _ => 0,
      .insertRow (fun _ => 3) fun _ => 0,
      .insertRow (fun _ => 7) fun _ => 0] (Share.fresh fun _ _ => 0)).any
      (fun s => decide (s.state 0 = .active ∧
        s.data 0 = (fun _ => 7) ∧ s.state 1 = .active ∧ s.data 1 = (fun _ => 3) ∧
        s.state 2 = .active ∧ s.data 2 = fun _ => 7)) = true := by
    decide +kernel
  obtain ⟨s, hops, hrows⟩ := (Option.any_eq_true _ _).mp heval
  obtain ⟨hactive₀, hdata₀, hactive₁, hdata₁, hactive₂, hdata₂⟩ := of_decide_eq_true hrows
  have hcalls := CallSeq.of_callAllowed hops
  obtain ⟨-, found, scanned, hfound, hscanned, hnodup, -, hscan, hmem⟩ :=
    lookup_equals_filtered_scan (bagTable 1) 0 (fun _ _ => 0) (hashRespects_bagTable 1)
      (keyRespects_bagTable 1) (by decide) s hcalls 0 (by decide) 7 1 fun _ => 0
  have hrow₀ : (0, fun _ => 7) ∈ scanned := (hscan _).mpr ⟨hactive₀, hdata₀.symm⟩
  have hrow₁ : (1, fun _ => 3) ∈ scanned := (hscan _).mpr ⟨hactive₁, hdata₁.symm⟩
  have hrow₂ : (2, fun _ => 7) ∈ scanned := (hscan _).mpr ⟨hactive₂, hdata₂.symm⟩
  refine ⟨s, found, scanned, hcalls, by decide, hfound, hscanned, hnodup, (hmem _).mpr ⟨hrow₀, rfl⟩,
    (hmem _).mpr ⟨hrow₂, rfl⟩, hrow₁, fun hother => ?_⟩
  exact absurd ((hmem _).mp hother).2 (by decide)

end FastMem
