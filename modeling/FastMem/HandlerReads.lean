import FastMem.HandlerRoles

/-!
# The row reads of a handler

A row read looks a row up and, in a write statement, locks it and reads it again.  In a write
statement the thread notes which slot its lookup has seen ACTIVE.  Outside one no row lock is
taken: what is returned is what `fm_core_read_row` copied, and the generation the handle
remembers is loaded after that, so the thread keeps the steps of the read that delivered the
image in its role.  The lookups are the same, and are followed here once for both.
-/

namespace FastMem

open Conc

variable {n : Nat} {W PK Op Loc Out : Type} {T : Setting n W PK Op Out}
  {Idle : Loc → Role n W → Prop} {c : Call Op} {m : Nat} {expect : Option Nat} {g g' : Role n W}
  {tab : TableCfg n W PK}
    {h : Handler n W PK}

/-- A part of a lookup changes where the thread stands in a read, and its note of the slot it
has seen; if it was `ok`, these are as `D` says. -/
def Recalls (I : ReadView n W → Prop) (D : ReadView n W → Option Int → Prop) (ok : Prop)
    (g g' : Role n W) : Prop :=
  ∃ r o, g' = { g with read := r, seen := o } ∧ I r ∧ (ok → D r o)

/-- How the thread of a call keeps its lookup in mind: `D idx buf` is so when it has copied the
image `buf` of slot `idx`, and `E idx v buf` when it knows the generation `v` as well; `expect` is
the generation the call has been asked for, when it loads none. -/
structure Looks (T : Setting n W PK Op Out) (Idle : Loc → Role n W → Prop) (c : Call Op)
    (expect : Option Nat) (I : ReadView n W → Prop)
    (D : Int → Image n W → ReadView n W → Option Int → Prop)
    (E : Int → Nat → Image n W → ReadView n W → Option Int → Prop) : Prop where
  visit : ∀ m (g : Role n W) idx buf, g.since = c.start → I g.read →
    Follows T Idle c m (readRow idx false 0 buf) (fun x => Recalls I (D idx x.2) (x.1 = .ok) g) g
  check : ∀ m (g : Role n W) idx v buf, expect = some v → g.since = c.start → I g.read →
    Follows T Idle c m (readRow idx true v buf) (fun x => Recalls I (E idx v x.2) (x.1 = .ok) g) g
  load : ∀ m (g : Role n W) idx buf, expect = none → I g.read → D idx buf g.read g.seen →
    Follows T Idle c m (access (.loadGen idx)) (fun v => Recalls I (E idx v buf) True g) g

variable {I : ReadView n W → Prop} {D : Int → Image n W → ReadView n W → Option Int → Prop}
  {E : Int → Nat → Image n W → ReadView n W → Option Int → Prop}
    {D' : ReadView n W → Option Int → Prop} {ok : Prop}

/-- A walk that finds nothing recalls what it began with. -/
theorem recalls_none (hI : I g.read) (hnot : ¬ ok) : Recalls I D' ok g g :=
  ⟨g.read, g.seen, rfl, hI, fun hok => absurd hok hnot⟩

/-- A walk that goes on recalls its last look. -/
theorem Recalls.again {r : ReadView n W} {o : Option Int}
    (hrecalls : Recalls I D' ok { g with read := r, seen := o } g') : Recalls I D' ok g g' := by
  obtain ⟨r', o', rfl, hI, hok⟩ := hrecalls
  exact ⟨r', o', rfl, hI, hok⟩

/-- The handler stays where it is. -/
theorem Recalls.home (hrecalls : Recalls I D' ok g g') (hhome : AtHome h g) : AtHome h g' := by
  obtain ⟨r, o, rfl, -, -⟩ := hrecalls
  exact ⟨{ hhome.rest with }, hhome.locks, hhome.phase⟩

theorem Recalls.since (hrecalls : Recalls I D' ok g g') : g'.since = g.since := by
  obtain ⟨r, o, rfl, -, -⟩ := hrecalls
  rfl

/-- What is recalled in any case is recalled on success. -/
theorem Recalls.always (hrecalls : Recalls I D' True g g') : Recalls I D' ok g g' := by
  obtain ⟨r, o, rfl, hI, hok⟩ := hrecalls
  exact ⟨r, o, rfl, hI, fun _ => hok trivial⟩

section

variable (hL : Looks T Idle c expect I D E) (hsince : g.since = c.start) (hI : I g.read)

include hL hsince hI in
/-- A walk recalls its last look at the slot it returns. -/
theorem follows_findWalk (key : Nat) (pk : PK) (buf : Image n W) (i : Int) :
    Follows T Idle c m (loop (.findWalk key pk buf i))
      (fun x => Recalls I (D x.2.2 x.2.1) (x.1 = .ok) g) g := by
  induction m using Nat.strong_induction_on generalizing g buf i with
  | _ m ih =>
      refine Logic.Safe.enter fun m' hm' =>
        follows_ite (fun _ => follows_pure (recalls_none hI (by simp))) fun _ => ?_
      refine Follows.then (hL.visit m' g i buf hsince hI) ?_
      rintro ⟨rc, buf'⟩ g' ⟨r, o, rfl, hr, hok⟩
      refine follows_ite (fun hfound => follows_pure ⟨r, o, rfl, hr, fun _ => hok hfound.1⟩)
        fun _ => ?_
      refine follows_look rfl fun nx => ?_
      exact (ih m' hm' (g := { g with read := r, seen := o }) hsince hr buf' nx).weaken
        fun x g' hx => hx.again

include hL hsince hI in
theorem follows_findNextWalk (key : Nat) (pk : PK) (cur : Int) (after : Bool)
    (buf : Image n W) (i : Int) : Follows T Idle c m (loop (.findNextWalk key pk cur after buf i))
      (fun x => Recalls I (D x.2.2 x.2.1) (x.1 = .ok) g) g := by
  induction m using Nat.strong_induction_on generalizing g buf i after with
  | _ m ih =>
      refine Logic.Safe.enter fun m' hm' =>
        follows_ite (fun _ => follows_pure (recalls_none hI (by simp))) fun _ => ?_
      refine follows_ite (fun _ => follows_look rfl fun nx => ih m' hm' hsince hI true buf nx)
        fun _ => ?_
      refine follows_ite (fun _ => ?_) fun _ => follows_look rfl fun nx =>
        ih m' hm' hsince hI after buf nx
      refine Follows.then (hL.visit m' g i buf hsince hI) ?_
      rintro ⟨rc, buf'⟩ g' ⟨r, o, rfl, hr, hok⟩
      refine follows_ite (fun hfound => follows_pure ⟨r, o, rfl, hr, fun _ => hok hfound.1⟩)
        fun _ => ?_
      refine follows_look rfl fun nx => ?_
      exact (ih m' hm' (g := { g with read := r, seen := o }) hsince hr after buf' nx).weaken
        fun x g' hx => hx.again

/-- A walk under the lock of its bucket, by a thread in the middle of nothing. -/
theorem follows_locked_walk {α : Type} {k b : Nat} {walk : Int → Core n W PK α} {ok : α → Prop}
    {D' : α → ReadView n W → Option Int → Prop} (hhome : AtHome h g)
    (hwalk : ∀ i,
      Follows T Idle c m (walk i)
        (fun x => Recalls I (D' x) (ok x) { g with locks := .bucket k b :: g.locks })
      { g with locks := .bucket k b :: g.locks }) :
    Follows T Idle c m (do
        access (.lock (.bucket k b))
        let i ← access (.loadHead k b)
        let r ← walk i
        access (.unlock (.bucket k b))
        pure r) (fun x => Recalls I (D' x) (ok x) g) g := by
  refine Turns.then (turns_lock _) fun _ => follows_look rfl fun i => Follows.then (hwalk i) ?_
  rintro x g' ⟨r, o, rfl, hr, hok⟩
  refine Turns.then (turns_unlockBucket rfl hhome.rest.walk) fun _ =>
    follows_pure ⟨r, o, ?_, hr, hok⟩
  simp only
  rw [← hhome.rest.dup, ← hhome.rest.checked]

include hL hsince hI in
/-- A lookup recalls its last look at the slot it returns. -/
theorem follows_find (hhome : AtHome h g) (key : Nat) (pk : PK) (buf : Image n W) :
    Follows T Idle c m (find tab.toShareCfg key pk buf)
      (fun x => Recalls I (D x.2.2 x.2.1) (x.1 = .ok) g) g :=
  follows_locked_walk hhome fun i =>
    follows_findWalk (g := { g with locks := _ :: g.locks }) hL hsince hI key pk buf i

include hL hsince hI in
theorem follows_findNext (hhome : AtHome h g) (key : Nat) (pk : PK) (cur : Int) (buf : Image n W) :
    Follows T Idle c m (findNext tab.toShareCfg key pk cur buf)
      (fun x => Recalls I (D x.2.2 x.2.1) (x.1 = .ok) g) g :=
  follows_locked_walk hhome fun i =>
    follows_findNextWalk (g := { g with locks := _ :: g.locks }) hL hsince hI key pk cur false buf i

/-- What a lookup leaves: if it has found a row, its slot, generation and image are kept in mind. -/
abbrev LookedUp (I : ReadView n W → Prop)
    (E : Int → Nat → Image n W → ReadView n W → Option Int → Prop) (g : Role n W)
    (found : Option HaErr × Image n W × Info n W PK) : Role n W → Prop :=
  Recalls I (E found.2.2.currentSlot found.2.2.currentGen found.2.1) (found.1 = none) g

include hL in
/-- The generation of the row that was found is loaded. -/
theorem follows_loadGen {α : Type} {f : Nat → Core n W PK α} {Q : α → Role n W → Prop} {idx : Int}
    {buf : Image n W} {r : ReadView n W} {o : Option Int} (hexpect : expect = none) (hr : I r)
    (hD : D idx buf r o)
    (hf : ∀ v g', Recalls I (E idx v buf) True g g' → Follows T Idle c m (f v) Q g') :
    Follows T Idle c m (access (.loadGen idx) >>= f) Q { g with read := r, seen := o } :=
  Follows.then (hL.load m { g with read := r, seen := o } idx buf hexpect hr hD)
    fun v g' hrecalls => hf v g' hrecalls.again

include hL hsince hI in
/-- `fm_find_key` recalls its last look. -/
theorem follows_fmFindKey (hexpect : expect = none) (hhome : AtHome h g) (info : Info n W PK)
    (inx : Nat) (key : PK) (buf : Image n W) :
    Follows T Idle c m (fmFindKey tab info inx key buf) (fun found => LookedUp I E g found) g := by
  refine Follows.then (follows_find hL hsince hI hhome inx key buf) ?_
  rintro ⟨rc, img, idx⟩ g' ⟨r, o, rfl, hr, hok⟩
  refine follows_ite (fun hrc => ?_) fun _ => follows_pure ⟨r, o, rfl, hr, nofun⟩
  exact follows_loadGen hL hexpect hr (hok hrc) fun v g' hrecalls => follows_pure hrecalls.always

include hL hsince hI in
theorem follows_fmFindNextKey (hexpect : expect = none) (hhome : AtHome h g) (info : Info n W PK)
    (inx : Nat) (key : PK) (cur : Int)
    (buf : Image n W) : Follows T Idle c m (fmFindNextKey tab info inx key cur buf)
    (fun found => LookedUp I E g found) g := by
  refine Follows.then (follows_findNext hL hsince hI hhome inx key cur buf) ?_
  rintro ⟨rc, img, idx⟩ g' ⟨r, o, rfl, hr, hok⟩
  refine follows_ite (fun hrc => ?_) fun _ => follows_pure ⟨r, o, rfl, hr, nofun⟩
  exact follows_loadGen hL hexpect hr (hok hrc) fun v g' hrecalls => follows_pure hrecalls.always

/-- The slot before a position of the scan. -/
theorem i32_before_next (pos : Nat) : i32 (pos + 1 + 2 ^ 32 - 1) = i32 pos := by
  have hpos : pos + 1 + 2 ^ 32 - 1 = pos + 2 ^ 32 := by omega
  unfold i32
  rw [hpos, Nat.add_mod_right]

include hL hsince hI in
/-- The scan, which hands its caller the position after the slot it read. -/
theorem follows_scanFrom (pos fuel : Nat) (buf : Image n W) :
    Follows T Idle c m (scanFrom pos fuel buf) (fun x g' => ∃ idx,
      (x.1 = .ok → i32 (x.2.1 + 2 ^ 32 - 1) = idx) ∧
        Recalls I (D idx x.2.2) (x.1 = .ok) g g') g := by
  induction fuel generalizing g pos buf with
  | zero => exact follows_pure ⟨0, nofun, recalls_none hI (by simp)⟩
  | succ fuel ih =>
      refine Follows.then (hL.visit m g (i32 pos) buf hsince hI) ?_
      rintro ⟨rc, buf'⟩ g' ⟨r, o, rfl, hr, hok⟩
      refine follows_ite (fun hrc => follows_pure ⟨i32 pos, fun _ => ?_, r, o, rfl,
        hr, fun _ => hok hrc⟩) fun _ => ?_
      · exact i32_before_next pos
      · refine (ih (g := { g with read := r, seen := o }) hsince hr (pos + 1) buf').weaken ?_
        rintro x g' ⟨idx, hidx, hrecalls⟩
        exact ⟨idx, hidx, hrecalls.again⟩

include hL hsince hI in
/-- `fm_scan` recalls its last look. -/
theorem follows_fmScan (hexpect : expect = none) (info : Info n W PK) (buf : Image n W) :
    Follows T Idle c m (fmScan info buf) (fun found => LookedUp I E g found) g := by
  refine Follows.then (follows_look rfl fun cnt => follows_scanFrom hL hsince hI _ _ buf) ?_
  rintro ⟨rc, pos, img⟩ g' ⟨idx, hidx, r, o, rfl, hr, hok⟩
  refine follows_ite (fun hrc => ?_) fun _ => follows_pure ⟨r, o, rfl, hr, nofun⟩
  have hslot : i32 (pos + 2 ^ 32 - 1) = idx := hidx hrc
  rw [hslot]
  exact follows_loadGen hL hexpect hr (hok hrc) fun v g' hrecalls => follows_pure hrecalls.always

/-- How a read by reference ends: at the position asked for, or with `HA_ERR_RECORD_DELETED`. -/
def AnswersRef (pos : Int × Nat) (err : Option HaErr) (ref : Int × Nat) : Prop :=
  (err = none → ref = pos) ∧ (pos.1 ≠ -1 → err = none ∨ err = some .recordDeleted)

include hL hsince hI in
/-- `fm_rrnd`, which checks the generation of the reference on its way. -/
theorem follows_fmRrnd (info : Info n W PK) (buf : Image n W) (pos : Int × Nat)
    (hexpect : expect = some pos.2) :
    Follows T Idle c m (fmRrnd info buf pos) (fun found g' => LookedUp I E g found g' ∧
      AnswersRef pos found.1 (fmSetPosition found.2.2)) g := by
  unfold fmRrnd
  refine follows_ite (fun hnull => follows_pure ⟨recalls_none hI nofun,
    nofun, fun hne => absurd hnull hne⟩) fun _ => ?_
  refine Follows.then (hL.check m g pos.1 pos.2 buf hexpect hsince hI) ?_
  rintro ⟨rc, img⟩ g' ⟨r, o, rfl, hr, hok⟩
  refine follows_ite (fun hrc => follows_pure ?_) fun _ => follows_pure ?_
  · exact ⟨⟨r, o, rfl, hr, fun _ => hok hrc⟩, fun _ => rfl, fun _ => Or.inl rfl⟩
  · exact ⟨⟨r, o, rfl, hr, nofun⟩, nofun, fun _ => Or.inr rfl⟩

end

/-- A row read follows the protocol to its end, whatever that is, if it does so once its lookup
has found a row, or none; `S` is what is known of the position the lookup has left. -/
def RowRead (T : Setting n W PK Op Out) (Idle : Loc → Role n W → Prop) (c : Call Op)
    (expect : Option Nat) (h : Handler n W PK) (S : Option HaErr → Int × Nat → Prop) (g : Role n W)
    (p : Core n W PK (HandlerOut n W × Handler n W PK)) : Prop :=
  ∀ m I D E Q, Looks T Idle c expect I D E → I g.read →
    (∀ m gone found g', LookedUp I E g found g' → S found.1 (fmSetPosition found.2.2) →
      Follows T Idle c m (rereadInWriteStmt gone found h >>= fun r => pure (readResult r)) Q g') →
    (∀ err buf info g', Recalls I (fun _ _ => True) False g g' → S (some err) (fmSetPosition info) →
      Q (⟨some err, buf⟩, { h with file := info }) g') →
    Follows T Idle c m p Q g

section

variable (hhome : AtHome h g) (hsince : g.since = c.start)

/-- A call that fails need not recall anything. -/
theorem Recalls.failed (hrecalls : Recalls I D' ok g g') :
    Recalls I (fun _ _ => True) False g g' := by
  obtain ⟨r, o, rfl, hI, -⟩ := hrecalls
  exact ⟨r, o, rfl, hI, fun _ => trivial⟩

include hhome hsince in
/-- `index_read_map`, `index_read_last_map` and `index_read_idx_map`. -/
theorem rowRead_indexRead (index : Nat) (key : PK) (buf : Image n W) :
    RowRead T Idle c none h (fun _ _ => True) g (indexRead tab index key buf h) := by
  intro m I D E Q hL hI hend _
  refine Follows.then (follows_fmFindKey hL hsince hI rfl hhome h.file index key buf) ?_
  exact fun found g' hlook => hend m _ found g' hlook trivial

include hhome hsince in
/-- `index_next`. -/
theorem rowRead_indexNext (buf : Image n W) : RowRead T Idle c none h (fun _ _ => True) g
    (indexNext tab buf h) := by
  intro m I D E Q hL hI hend hfail
  unfold indexNext
  refine follows_ite (fun _ => follows_pure (hfail _ _ h.file g (recalls_none hI id) trivial))
    fun _ => ?_
  refine Follows.then (follows_fmFindNextKey hL hsince hI rfl hhome h.file _ _ _ buf) ?_
  intro found g' hlook
  exact follows_ite (fun _ => follows_pure (hfail _ _ _ g' hlook.failed trivial)) fun _ =>
    hend m _ found g' hlook trivial

include hsince in
/-- `rnd_next`. -/
theorem rowRead_rndNext (buf : Image n W) : RowRead T Idle c none h (fun _ _ => True) g
    (rndNext buf h) := by
  intro m I D E Q hL hI hend _
  refine Follows.then (follows_fmScan hL hsince hI rfl h.file buf) ?_
  exact fun found g' hlook => hend m _ found g' hlook trivial

include hsince in
/-- `rnd_pos`. -/
theorem rowRead_rndPos (pos : Int × Nat) (buf : Image n W) : RowRead T Idle c (some pos.2) h
    (AnswersRef pos) g (rndPos pos buf h) := by
  intro m I D E Q hL hI hend _
  refine Follows.then (follows_fmRrnd hL hsince hI h.file buf pos rfl) ?_
  exact fun found g' hlook => hend m _ found g' hlook.1 hlook.2

include hhome hsince in
/-- `find_unique_row`. -/
theorem rowRead_findUniqueRow (index : Nat) (record : Image n W) :
    RowRead T Idle c none h (fun _ _ => True) g (findUniqueRow tab index record h) := by
  intro m I D E Q hL hI hend hfail
  unfold findUniqueRow
  refine follows_ite (fun _ => ?_) fun _ =>
    follows_pure (hfail _ _ h.file g (recalls_none hI id) trivial)
  refine Follows.then
    (follows_find hL hsince hI hhome index (tab.makeKey index h.file.lastkey record)
      h.file.scratch) ?_
  rintro ⟨rc, img, idx⟩ g' ⟨r, o, rfl, hr, hok⟩
  refine follows_ite (fun hrc => ?_) fun _ =>
    follows_pure (hfail _ _ _ _ ⟨r, o, rfl, hr, nofun⟩ trivial)
  exact follows_loadGen hL rfl hr (hok hrc) fun v g' hrecalls =>
    hend m _ _ g' hrecalls.always trivial

end

/-- A thread that notes the slots it sees ACTIVE. -/
theorem looks_seen : Looks T Idle c expect (fun r => r = .none)
    (fun idx _ _ o => o = some idx) fun idx _ _ _ o => o = some idx where
  visit := by
    intro m g idx buf _ hread
    refine (follows_readRow_seen hread idx false 0 buf).weaken ?_
    rintro x g' ⟨o, rfl, hok⟩
    exact ⟨g.read, o, rfl, hread, hok⟩
  check := by
    intro m g idx v buf _ _ hread
    refine (follows_readRow_seen hread idx true v buf).weaken ?_
    rintro x g' ⟨o, rfl, hok⟩
    exact ⟨g.read, o, rfl, hread, hok⟩
  load := fun m g idx buf _ hread hseen =>
    (turns_look rfl).weaken fun v g' hg => ⟨g.read, g.seen, hg, hread, fun _ => hseen⟩

/-- A row read ends well if its thread notes the slots it sees ACTIVE. -/
theorem RowRead.ends {S : Option HaErr → Int × Nat → Prop} {R : Int → Prop}
    {P : Nat → Image n W → Prop} {N : Int → Prop}
    {p : Core n W PK (HandlerOut n W × Handler n W PK)} (hp : RowRead T Idle c expect h S g p)
    (hT : T.Sound) (hP : h.writeStmt = true → T.Pins c P)
    (hN : ∀ w i, T.meets c (.loadGen i) w → N i) (hhome : AtHome h g)
    (hread : g.read = .none) (hsince : g.since = c.start) (hS : ∀ ref, S none ref → R ref.1) :
    Follows T Idle c m p (ReadEnds P N R h.writeStmt g) g := by
  refine hp m _ _ _ _ looks_seen hread (fun m gone found g' hlook hfound => ?_)
    fun err buf info g' hrecalls _ => ?_
  · have hhome' := hlook.home hhome
    obtain ⟨r, o, rfl, rfl, hok⟩ := hlook
    refine (follows_foundRow (g := { g with read := .none, seen := o }) (S := R) hT hP hN
      gone found hhome' rfl (fun herr => hok herr) hsince fun herr => ?_).weaken ?_
    · rw [herr] at hfound
      exact hS _ hfound
    · rintro x g' ⟨hback, hends⟩
      exact ⟨⟨hback.home, hback.since, hback.read.trans hread.symm⟩, hends⟩
  · have hhome' := (hrecalls.home hhome).withFile info
    obtain ⟨r, o, rfl, rfl, -⟩ := hrecalls
    exact .failed ⟨hhome', rfl, hread.symm⟩

/-- A thread that keeps the read of the row in mind, and the generation loaded after it. -/
theorem looks_read (hreads : ∀ i, T.Reads c expect i) :
    Looks T Idle c expect (fun _ => True) (fun idx buf r _ => Delivered idx false 0 c.start buf r)
      fun idx v buf r _ => ∃ m g₀, r = .got idx m g₀ (some v) buf ∧ c.start ≤ m where
  visit := by
    intro m g idx buf hsince _
    refine (follows_readRow_read idx false 0 buf (hreads idx) nofun).weaken ?_
    rintro x g' ⟨r, rfl, hr⟩
    refine ⟨r, g.seen, rfl, trivial, fun hx => ?_⟩
    rw [if_pos hx, hsince] at hr
    exact hr
  check := by
    intro m g idx v buf hexpect hsince _
    refine (follows_readRow_read idx true v buf (hreads idx) fun _ u hu => ?_).weaken ?_
    · exact Option.some_inj.mp (hu.symm.trans hexpect)
    rintro x g' ⟨r, rfl, hr⟩
    refine ⟨r, g.seen, rfl, trivial, fun hx => ?_⟩
    rw [if_pos hx, hsince] at hr
    obtain ⟨m₀, g₀, checked, rfl, hm, hchecked⟩ := hr
    rw [hchecked rfl]
    exact ⟨m₀, g₀, rfl, hm⟩
  load := by
    intro m g idx buf hexpect _ hdelivered
    obtain ⟨m₀, g₀, checked, hgot, hm, -⟩ := hdelivered
    have hret : access (.loadGen idx) = (access (.loadGen idx) >>= pure : Core n W PK Nat) := rfl
    rw [hret]
    refine follows_access fun w _ v _ _ _ hmeets _ =>
      ⟨_, .read (.after hgot ((hreads idx).check w hmeets (hexpect ▸ nofun))), ?_⟩
    exact follows_pure ⟨_, g.seen, rfl, trivial, fun _ => ⟨m₀, g₀, rfl, hm⟩⟩

/-- How a row read of a reading handle ends, `S` being what is known of the error it
returns and the position it leaves the handle at. -/
def LookEnds (S : Option HaErr → Int × Nat → Prop) (g : Role n W)
    (x : HandlerOut n W × Handler n W PK) (g' : Role n W) : Prop :=
  AtHome x.2 g' ∧ g'.since = g.since ∧ S x.1.err (fmSetPosition x.2.file) ∧
    (x.1.err = none → ∃ img m g₀, x.1.buf = some img ∧
      g'.read = .got x.2.file.currentSlot m g₀ (some x.2.file.currentGen) img ∧ g.since ≤ m)

/-- Outside a write statement a row that was found is returned as it is. -/
theorem rereadInWriteStmt_unlocked (gone : HaErr) (found : Option HaErr × Image n W × Info n W PK)
    (hwrite : h.writeStmt = false) :
    (rereadInWriteStmt gone found h : Core n W PK _) = pure
    (found.1, found.2.1, { h with file := found.2.2 }) := by
  unfold rereadInWriteStmt
  rw [if_neg fun hand => by simp [hwrite] at hand]

/-- A row read of a reading handle returns what its thread has kept in mind. -/
theorem RowRead.looked {S : Option HaErr → Int × Nat → Prop}
    {p : Core n W PK (HandlerOut n W × Handler n W PK)} (hp : RowRead T Idle c expect h S g p)
    (hreads : ∀ i, T.Reads c expect i) (hwrite : h.writeStmt = false) (hhome : AtHome h g)
    (hsince : g.since = c.start) : Follows T Idle c m p (LookEnds S g) g := by
  refine hp m _ _ _ _ (looks_read hreads) trivial (fun m gone found g' hlook hfound => ?_)
    fun err buf info g' hrecalls herr => ?_
  · have hhome' := hlook.home hhome
    obtain ⟨r, o, rfl, -, hok⟩ := hlook
    rw [rereadInWriteStmt_unlocked gone found hwrite]
    refine follows_pure ⟨hhome'.withFile _, rfl, hfound, fun hnone => ?_⟩
    obtain ⟨m₀, g₀, hgot, hm⟩ := hok hnone
    exact ⟨found.2.1, m₀, g₀, rfl, hgot, hsince ▸ hm⟩
  · exact ⟨(hrecalls.home hhome).withFile info, hrecalls.since, herr, nofun⟩

end FastMem
