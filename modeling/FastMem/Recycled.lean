import FastMem.Reads
import FastMem.Follow

/-!
# Reads of slots that may be recycled

A seqlock read sees its slot ACTIVE and copies the image later.  In between the row may
be deleted and the slot used again by an insert, which stores the new image without
touching the sequence number.  Here is what a read is worth as long as this has not
happened: the slot is still the row the read saw, or the row is gone and its last image
is still there.

The generation counts how often the slot has been recycled, modulo `2 ^ 32`.
-/

namespace FastMem

open Conc

variable {n : Nat} {W PK Op Out : Type}

/-- Since thread `t` last loaded the state of slot `i`, an insert has used the slot: a word
was stored while the slot was not ACTIVE, or the slot was made ACTIVE. -/
def refilled (t : Nat) (i : Int) : List (CoreEntry n W PK Op) → Bool
  | [] => false
  | e :: es =>
      match e.act with
      | .loadState j => if e.call.tid = t ∧ j = i then false else refilled t i es
      | .storeWord j _ _ => decide (j = i ∧ e.mem.state i ≠ .active) || refilled t i es
      | .storeState j .active => decide (j = i) || refilled t i es
      | _ => refilled t i es

/-- How often slot `i` has been recycled. -/
def recycles (i : Int) : List (CoreEntry n W PK Op) → Nat
  | [] => 0
  | e :: es =>
      match e.act with
      | .addGen j => (if j = i then 1 else 0) + recycles i es
      | _ => recycles i es

/-- How often slot `i` had been recycled at time `m`. -/
def recyclesAt (w : CoreWorld n W PK Op Out) (i : Int) (m : Nat) : Nat :=
  recycles i (w.past.drop (w.now - m))

variable {cfg : ShareCfg n W PK} {K : Kind → Prop} {G : Commit n W → Prop} {now t : Nat}
  {s s' : Share n W} {g g' : Role n W} {a : Act n W} {r : a.Res} {γ : Nat → Role n W}
  {w : CoreWorld n W PK Op Out} {c : Call Op} {i : Int} {T : Setting n W PK Op Out}

/-- A generation is bumped by the delete of the row, or by a clear. -/
theorem Step.addGen {r : Unit} (h : Step cfg K G now s g (.addGen i) r g') :
    g.phase = .dead ∧ g.slot = i ∨ g.phase = .flip ∧ i ∈ g.flipped := by
  cases h with
  | slot hs =>
      cases hs with
      | age phase => exact Or.inl ⟨phase, rfl⟩
      | flipGen phase held done => exact Or.inr ⟨phase, done⟩
  | view hs => cases hs with | look passive => cases passive
  | read hs => cases hs with | miss passive => cases passive
  | lock hs | free hs | grow hs | image hs | chain hs | dup hs | note hs => cases hs

/-- A slot that is ACTIVE is taken out of this state by a thread that holds its wlock. -/
theorem Step.storeState {x : SlotState} {r : Unit}
    (h : Step cfg K G now s g (.storeState i x) r g') :
    x = .active ∨ g.phase = .row ∧ g.slot = i ∨ g.phase = .del ∧ g.slot = i ∨
      g.phase = .flip ∧ Lock.row i ∈ g.locks := by
  cases h with
  | slot hs =>
      cases hs with
      | publish => exact Or.inl rfl
      | mark kind phase => exact Or.inr (Or.inl ⟨phase, rfl⟩)
      | bury phase => exact Or.inr (Or.inr (Or.inl ⟨phase, rfl⟩))
      | flip kind phase held => exact Or.inr (Or.inr (Or.inr ⟨phase, held⟩))
  | view hs => cases hs with | look passive => cases passive
  | read hs => cases hs with | miss passive => cases passive
  | lock hs | free hs | grow hs | image hs | chain hs | dup hs | note hs => cases hs

/-- The number of chunks grows by one. -/
theorem Step.storeChunkCnt {k : Nat} {r : Unit} (h : Step cfg K G now s g (.storeChunkCnt k) r g') :
    ∃ c, g.chunk = some c ∧ k = c + 1 ∧ c < cfg.chunkCap := by
  cases h with
  | grow hs =>
      cases hs with
      | publish kind held chunk free phase extra cap => exact ⟨_, chunk, rfl, cap⟩
  | view hs => cases hs with | look passive => cases passive
  | read hs => cases hs with | miss passive => cases passive
  | lock hs | free hs | slot hs | image hs | chain hs | dup hs | note hs => cases hs

/-- Only its own store changes it. -/
theorem exec_chunkCnt (hexec : exec cfg t a s = some (r, s')) :
    (∃ k, a = .storeChunkCnt k ∧ s'.chunkCnt = k) ∨ s'.chunkCnt = s.chunkCnt := by
  cases a with
  | storeChunkCnt k =>
      cases hexec
      exact Or.inl ⟨k, rfl, rfl⟩
  | lock l =>
      simp only [exec] at hexec
      split at hexec
      · cases hexec
        exact Or.inr (sameSlots_setOwner _ _).chunkCnt
      · cases hexec
  | unlock l =>
      cases hexec
      exact Or.inr (sameSlots_setOwner _ _).chunkCnt
  | casAutoInc cur new =>
      simp only [exec] at hexec
      split at hexec <;> cases hexec <;> exact Or.inr rfl
  | _ =>
      cases hexec
      exact Or.inr rfl

/-- Slots stay in the share. -/
theorem Share.Grown.step (hi : s.Grown i) (hslots : Slots cfg s γ)
    (hexec : exec cfg t a s = some (r, s'))
    (hstep : Step cfg K G now s (γ t) a r g') : s'.Grown i := by
  obtain ⟨u, hu, rfl⟩ := hi
  refine ⟨u, hu.trans_le ?_, rfl⟩
  rcases exec_chunkCnt hexec with ⟨k, rfl, hk⟩ | hk
  · obtain ⟨c, hc, rfl, hcap⟩ := hstep.storeChunkCnt
    rw [hk, (hslots.mine t).chunk c hc, (slotCount_of_le hcap.le).1,
      (slotCount_of_le (Nat.succ_le_of_lt hcap)).1]
    exact Nat.mul_le_mul_right _ (Nat.le_succ c)
  · rw [hk]

/-- What an access does to the state, the generation and the image of a slot. -/
theorem exec_slot (i : Int) (hexec : exec cfg t a s = some (r, s')) :
    (∃ x, a = .storeState i x ∧ s'.state i = x ∧ s'.gen i = s.gen i ∧ s'.data i = s.data i) ∨
      a = .addGen i ∧ s'.state i = s.state i ∧ s'.gen i = (s.gen i + 1) % 2 ^ 32 ∧
      s'.data i = s.data i ∨
      (∃ j x, a = .storeWord i j x) ∧ s'.state i = s.state i ∧ s'.gen i = s.gen i ∨
      (∃ k, a = .initSlots k ∧ u32 i / chunkSize = k ∧ s'.gen i = 0) ∨
      a ≠ .addGen i ∧ s'.state i = s.state i ∧ s'.gen i = s.gen i ∧ s'.data i = s.data i := by
  cases a with
  | storeState j x =>
      cases hexec
      by_cases hj : j = i
      · subst hj
        exact Or.inl ⟨x, rfl, by simp, rfl, rfl⟩
      · exact Or.inr (Or.inr (Or.inr (Or.inr ⟨by simp, by simp [Ne.symm hj], rfl, rfl⟩)))
  | addGen j =>
      cases hexec
      by_cases hj : j = i
      · subst hj
        exact Or.inr (Or.inl ⟨rfl, rfl, by simp, rfl⟩)
      · exact Or.inr (Or.inr (Or.inr (Or.inr ⟨by simpa using hj, rfl, by simp [Ne.symm hj], rfl⟩)))
  | storeWord j k x =>
      cases hexec
      by_cases hj : j = i
      · subst hj
        exact Or.inr (Or.inr (Or.inl ⟨⟨k, x, rfl⟩, rfl, rfl⟩))
      · exact Or.inr (Or.inr (Or.inr (Or.inr ⟨by simp, rfl, rfl, by simp [Ne.symm hj]⟩)))
  | initSlots k =>
      cases hexec
      by_cases hk : u32 i / chunkSize = k
      · exact Or.inr (Or.inr (Or.inr (Or.inl ⟨k, rfl, hk, by simp [hk]⟩)))
      · exact Or.inr (Or.inr (Or.inr (Or.inr ⟨by simp, by simp [hk], by simp [hk], rfl⟩)))
  | lock l =>
      simp only [exec] at hexec
      split at hexec
      · cases hexec
        exact Or.inr
          (Or.inr
            (Or.inr (Or.inr ⟨by simp, by rw [(sameSlots_setOwner _ _).state], by rw [setOwner_gen],
          by rw [setOwner_data]⟩)))
      · cases hexec
  | unlock l =>
      cases hexec
      exact Or.inr
        (Or.inr
          (Or.inr (Or.inr ⟨by simp, by rw [(sameSlots_setOwner _ _).state], by rw [setOwner_gen],
        by rw [setOwner_data]⟩)))
  | casAutoInc cur new =>
      simp only [exec] at hexec
      split at hexec <;> cases hexec <;>
        exact Or.inr (Or.inr (Or.inr (Or.inr ⟨by simp, rfl, rfl, rfl⟩)))
  | _ =>
      cases hexec
      exact Or.inr (Or.inr (Or.inr (Or.inr ⟨by simp, rfl, rfl, rfl⟩)))

/-- The slot a read has looked at, when it did and the generation the slot had. -/
def ReadView.look : ReadView n W → Option (Int × Nat × Nat)
  | .none => Option.none
  | .stated i m g .. | .sampled i m g .. | .got i m g .. => some (i, m, g)

/-- A slot that has been filled again has been so later on. -/
theorem refilled_push (h : refilled t i w.past = true) (hlook : c.tid = t → a ≠ .loadState i) :
    refilled t i (w.push c a s').past = true := by
  simp only [World.push_past]
  unfold refilled
  split
  · split
    · rename_i hown
      obtain ⟨htid, rfl⟩ := hown
      exact absurd (by assumption) (hlook htid)
    · exact h
  · rw [h, Bool.or_true]
  · rw [h, Bool.or_true]
  · exact h

/-- A read that saw slot `i` ACTIVE at time `m`, with generation `g₀`, and what has become
of the row: it is still there, or it is gone and its last image is what the slot holds. -/
structure Rooted (w : CoreWorld n W PK Op Out) (i : Int) (m g₀ : Nat) : Prop where
  grown : w.mem.Grown i
  row : w.mem.state i = .active ∧ w.mem.gen i = g₀ ∨
    w.mem.state i ≠ .active ∧ During w m w.now fun s =>
      s.state i = .active ∧ s.gen i = g₀ ∧ s.seq i % 2 = 0 ∧ s.data i = w.mem.data i

/-- The moment the row was there, whatever has become of it. -/
theorem Rooted.during {m g₀ : Nat} (h : Rooted w i m g₀) (hm : m ≤ w.now)
    (heven : w.mem.seq i % 2 = 0) :
    During w m w.now fun s => s.state i = .active ∧ s.gen i = g₀ ∧ s.seq i % 2 = 0 ∧
    s.data i = w.mem.data i := by
  rcases h.row with ⟨hactive, hgen⟩ | ⟨-, hduring⟩
  · refine ⟨w.now, hm, Nat.le_refl _, ?_⟩
    rw [World.memAt_now]
    exact ⟨hactive, hgen, heven, rfl⟩
  · exact hduring

/-- Nobody rewrites the image of a slot whose wlock a thread holds that does not do so. -/
theorem even_of_held (hlocked : Locked cfg s γ) (himages : Images s γ)
    (hheld : Lock.row i ∈ (γ t).locks) (hphase : (γ t).phase ≠ .write) : s.seq i % 2 = 0 := by
  by_contra hodd
  obtain ⟨u, hwrite, rfl⟩ := (himages.odd i).mp (by omega)
  have hu := hlocked.eq ((hlocked.ok u).rowed (by grind)) hheld
  rw [hu] at hwrite
  exact hphase hwrite

section

variable (hslots : Slots cfg w.mem γ) (himages : Images w.mem γ) (hlocked : Locked cfg w.mem γ)
  (hexec : exec cfg c.tid a w.mem = some (r, s'))
    (hstep : Step cfg K G w.now w.mem (γ c.tid) a r g')

include hslots himages hlocked hstep in
/-- When an ACTIVE slot changes its state, nobody is in the middle of its image. -/
theorem even_of_leaves_active {x : SlotState} (ha : a = .storeState i x) (hx : x ≠ .active)
    (hactive : w.mem.state i = .active) : w.mem.seq i % 2 = 0 := by
  subst ha
  rcases hstep.storeState with rfl | ⟨hphase, rfl⟩ | ⟨hphase, rfl⟩ | ⟨hphase, hheld⟩
  · exact absurd rfl hx
  · exact even_of_held hlocked himages ((hlocked.ok c.tid).rowed (by grind)) (by simp [hphase])
  · rw [(hslots.mine c.tid).del hphase] at hactive
    cases hactive
  · exact even_of_held hlocked himages hheld (by simp [hphase])

include hslots in
/-- A slot whose generation is bumped holds no row. -/
theorem not_active_of_addGen {r : Unit}
    (hstep : Step cfg K G w.now w.mem (γ c.tid) (.addGen i) r g') : w.mem.state i ≠ .active := by
  intro hactive
  rcases hstep.addGen with ⟨hphase, rfl⟩ | ⟨-, hmem⟩
  · rw [(hslots.mine c.tid).dead (Or.inl hphase)] at hactive
    cases hactive
  · rw [((hslots.mine c.tid).flipped i hmem).1] at hactive
    cases hactive

include hslots in
/-- A chunk that is being built is not published. -/
theorem not_grown_of_initSlots {k : Nat} {r : Unit}
    (hstep : Step cfg K G w.now w.mem (γ c.tid) (.initSlots k) r g') (hk : u32 i / chunkSize = k) :
    ¬ w.mem.Grown i := by
  obtain ⟨-, -, hchunk⟩ := hstep.initSlots
  exact not_grown_of_chunk hslots.chunks (hk.trans ((hslots.mine c.tid).chunk k hchunk).symm)

include hslots himages hlocked hexec hstep in
/-- **A look keeps its worth until an insert uses the slot.** -/
theorem Rooted.push {m g₀ : Nat} (h : Rooted w i m g₀) (hm : m ≤ w.now) :
    refilled t i (w.push c a s').past = true ∨ Rooted (w.push c a s') i m g₀ := by
  have hgrown : s'.Grown i := h.grown.step hslots hexec hstep
  -- a row that is gone stays gone while its image is left alone
  have hgone : w.mem.state i ≠ .active → s'.state i ≠ .active → s'.data i = w.mem.data i →
      Rooted (w.push c a s') i m g₀ := by
    intro hnot hnot' hdata
    refine ⟨hgrown, Or.inr ⟨hnot', ?_⟩⟩
    rcases h.row with ⟨hactive, -⟩ | ⟨-, hduring⟩
    · exact absurd hactive hnot
    · rw [World.push_mem, hdata]
      exact (hduring.push (Nat.le_refl _) c a s').mono (Nat.le_succ _)
  rcases exec_slot i hexec with ⟨x, rfl, hstate, -, hdata⟩ | ⟨rfl, hstate, -, hdata⟩ |
    ⟨⟨j, x, rfl⟩, hstate, hgen⟩ | ⟨k, rfl, hk, -⟩ | ⟨-, hstate, hgen, hdata⟩
  · by_cases hx : x = .active
    · subst hx
      exact Or.inl (by simp [refilled])
    · right
      rcases h.row with ⟨hactive, hgen⟩ | ⟨hnot, -⟩
      · have heven := even_of_leaves_active hslots himages hlocked hstep rfl hx hactive
        refine ⟨hgrown, Or.inr ⟨by rw [World.push_mem, hstate]; exact hx, w.now, hm,
          Nat.le_succ _, ?_⟩⟩
        rw [World.memAt_push (Nat.le_refl _), World.memAt_now]
        exact ⟨hactive, hgen, heven, hdata.symm⟩
      · exact hgone hnot (by rw [hstate]; exact hx) hdata
  · have hnot := not_active_of_addGen hslots hstep
    exact Or.inr (hgone hnot (by rw [hstate]; exact hnot) hdata)
  · rcases h.row with ⟨hactive, hgen₀⟩ | ⟨hnot, -⟩
    · exact Or.inr ⟨hgrown, Or.inl ⟨hstate.trans hactive, hgen.trans hgen₀⟩⟩
    · exact Or.inl (by simp [refilled, hnot])
  · exact absurd h.grown (not_grown_of_initSlots hslots hstep hk)
  · right
    rcases h.row with ⟨hactive, hgen₀⟩ | ⟨hnot, -⟩
    · exact ⟨hgrown, Or.inl ⟨hstate.trans hactive, hgen.trans hgen₀⟩⟩
    · exact hgone hnot (by rw [hstate]; exact hnot) hdata

end

/-- What a read in progress is worth: unless an insert has used its slot since it looked,
the row it saw is still there or is gone without a trace in the image. -/
def Undisturbed (w : CoreWorld n W PK Op Out) (t : Nat) (v : ReadView n W) : Prop :=
  ∀ i m g₀, v.slot = some i → v.look = some (i, m, g₀) →
    refilled t i w.past = true ∨ Unmoved w t v ∧ Rooted w i m g₀

section

variable (hslots : Slots cfg w.mem γ) (himages : Images w.mem γ) (hlocked : Locked cfg w.mem γ)
  (hexec : exec cfg c.tid a w.mem = some (r, s'))
    (hstep : Step cfg K G w.now w.mem (γ c.tid) a r g')

include hslots himages hstep in
/-- A word of an ACTIVE slot is stored in an image write. -/
theorem odd_of_storeWord {j : Fin n} {x : W} (ha : a = .storeWord i j x)
    (hactive : w.mem.state i = .active) : w.mem.seq i % 2 = 1 := by
  subst ha
  obtain ⟨rfl, ⟨hfill, -⟩ | hwrite⟩ := hstep.storeWord
  · rcases (hslots.mine c.tid).fill hfill with hstate |
      hstate <;> rw [hstate] at hactive <;> cases hactive
  · exact (himages.odd _).mpr ⟨c.tid, hwrite, rfl⟩

include hslots himages hlocked hexec hstep in
/-- Every step but those of the read itself. -/
theorem Undisturbed.push {v : ReadView n W} (h : Undisturbed w t v) (htime : v.time ≤ w.now)
    (hown : c.tid = t → a.samples = true → v = .none) : Undisturbed (w.push c a s') t v := by
  intro i m g₀ hslot hlook
  have hm : m ≤ w.now := by
    cases v <;> simp only [ReadView.look, Option.some.injEq, Prod.mk.injEq,
      reduceCtorEq] at hlook <;>
      exact hlook.2.1 ▸ htime
  by_cases hrefilled : refilled t i (w.push c a s').past = true
  · exact Or.inl hrefilled
  rcases h i m g₀ hslot hlook with href | ⟨hunmoved, hroot⟩
  · refine absurd (refilled_push href fun htid ha => ?_) hrefilled
    rw [hown htid (by rw [ha]; rfl)] at hslot
    cases hslot
  · refine Or.inr ⟨hunmoved.push hexec hown ?_ ?_, ?_⟩
    · rintro i' j x hslot' rfl
      obtain rfl : i = i' := Option.some.inj (hslot.symm.trans hslot')
      by_cases hactive : w.mem.state i = .active
      · exact odd_of_storeWord hslots himages hstep rfl hactive
      · exact absurd (by simp [refilled, hactive]) hrefilled
    · rintro i' k hslot' rfl hk
      obtain rfl : i = i' := Option.some.inj (hslot.symm.trans hslot')
      exact not_grown_of_initSlots hslots hstep hk hroot.grown
    · exact (hroot.push hslots himages hlocked hexec hstep hm).resolve_left hrefilled

include hslots himages hlocked hexec hstep in
/-- The steps of the read. -/
theorem Undisturbed.readStep (h : Undisturbed w c.tid (γ c.tid).read)
    (htime : (γ c.tid).read.time ≤ w.now) (hread : ReadStep G w.now w.mem (γ c.tid) a r g') :
    Undisturbed (w.push c a s') c.tid g'.read := by
  -- a step within the read, which does not look at the state
  have hwithin : ∀ i m g₀, (γ c.tid).read.slot = some i → (γ c.tid).read.look = some (i, m, g₀) →
      (γ c.tid).read.time = m → a ≠ .loadState i →
      refilled c.tid i (w.push c a s').past = true ∨ Unmoved (w.push c a s') c.tid g'.read ∧
      Rooted (w.push c a s') i m g₀ := by
    intro i m g₀ hslot hlook hm ha
    rcases h i m g₀ hslot hlook with href | ⟨hunmoved, hroot⟩
    · exact Or.inl (refilled_push href fun _ => ha)
    · have hmoved := hunmoved.readStep himages.bound hexec hread
      exact (hroot.push hslots himages hlocked hexec hstep (hm ▸ htime)).imp_right
        fun hroot' => ⟨hmoved, hroot'⟩
  intro i m g₀ hslot hlook
  cases hread with
  | state commit =>
      simp only [ReadView.look, Option.some.injEq, Prod.mk.injEq] at hlook
      obtain ⟨rfl, rfl, rfl⟩ := hlook
      simp only [exec, Option.some.injEq, Prod.mk.injEq] at hexec
      obtain ⟨hactive, rfl⟩ := hexec
      exact Or.inr ⟨trivial, hslots.grown_of_active hactive, Or.inl ⟨hactive, rfl⟩⟩
  | gen read | seq read | word read =>
      simp only [ReadView.look, Option.some.injEq, Prod.mk.injEq] at hlook
      obtain ⟨rfl, rfl, rfl⟩ := hlook
      exact hwithin _ _ _ (by rw [read]; rfl) (by rw [read]; rfl) (by rw [read]; rfl) (by simp)
  | miss | done | after => cases hslot

end

/-- **Reads in progress keep their worth along every trace.** -/
theorem trace_undisturbed (hT : T.Sound) (h : T.Trace w γ) : ∀ t, Undisturbed w t (γ t).read := by
  induction h with
  | init => exact fun t i m g₀ hslot => by cases hslot
  | @start w γ t _ ih =>
      rw [Function.forall_update_iff γ fun u g => Undisturbed w u g.read]
      exact ⟨fun i m g₀ hslot => (by cases hslot), fun u _ => ih u⟩
  | @act w γ c a r s g before _ hexec hstep ih =>
      have hslots := trace_slots hT.1 hT.2 before
      have himages := trace_images hT.1 hT.2 before
      have hlocked := trace_locked hT.1.owner before
      have htime := trace_read_time before
      rw [Function.forall_update_iff γ fun u g => Undisturbed (w.push c a s) u g.read]
      refine ⟨?_, fun u hu => (ih u).push hslots himages hlocked hexec hstep (htime u) fun h =>
        absurd h.symm hu⟩
      rcases hstep.read_eq with hread | ⟨hsame, hsamples⟩
      · exact (ih c.tid).readStep hslots himages hlocked hexec hstep (htime c.tid) hread
      · rw [hsame]
        exact (ih c.tid).push hslots himages hlocked hexec hstep (htime c.tid)
          fun _ ha => hsamples ha
  | stop _ _ ih =>
      intro t i m g₀ hslot hlook
      refine (ih t i m g₀ hslot hlook).imp_right ?_
      rintro ⟨hunmoved, hroot⟩
      exact ⟨hunmoved, hroot.grown, hroot.row⟩

/-- A read whose samples agree and whose slot no insert has used has copied the image of
the row it saw. -/
theorem Undisturbed.agree {v : ReadView n W} {m g₀ m₁ : Nat} {checked : Option Nat}
    {buf : Image n W} (h : Undisturbed w t v)
    (hv : v = .sampled i m g₀ checked (w.mem.seq i) m₁ (allWords buf)) (hm : m ≤ w.now)
    (hrefilled : refilled t i w.past = false) (hfew : writesInAttempt t i w.past < 2 ^ 31) :
    During w m w.now fun s => s.state i = .active ∧ s.gen i = g₀ ∧ s.seq i % 2 = 0 ∧
    s.data i = buf := by
  subst hv
  rcases h i m g₀ rfl rfl with href | ⟨hunmoved, hroot⟩
  · rw [hrefilled] at href
    cases href
  · obtain ⟨hdata, heven⟩ := hunmoved.done hfew
    rw [← hdata]
    exact hroot.during hm heven

/-- The generation a read has loaded. -/
def ReadView.checked : ReadView n W → Option Nat
  | .none => Option.none
  | .stated _ _ _ checked | .sampled _ _ _ checked .. | .got _ _ _ checked _ => checked

/-- The generation a read has loaded is the one its slot had when the read looked at it. -/
def Checked (w : CoreWorld n W PK Op Out) (t : Nat) (v : ReadView n W) : Prop :=
  ∀ i m g₀, v.look = some (i, m, g₀) →
    (∃ e, lastLook t i w.past = some (m, e) ∧ e.mem.gen i = g₀) ∧ ∀ u, v.checked = some u → u = g₀

/-- A thread's last look at a slot is its own doing. -/
theorem lastLook_push (hlook : c.tid = t → a ≠ .loadState i) :
    lastLook t i (w.push c a s').past = lastLook t i w.past := by
  simp only [World.push_past]
  conv_lhs => unfold lastLook
  split
  · split
    · rename_i hown
      obtain ⟨htid, rfl⟩ := hown
      exact absurd (by assumption) (hlook htid)
    · rfl
  · rfl

/-- What a read has checked is so after any other access. -/
theorem Checked.push {v : ReadView n W} (h : Checked w t v)
    (hown : c.tid = t → a.samples = true → v = .none) : Checked (w.push c a s') t v := by
  intro i m g₀ hlook
  have ha : c.tid = t → a ≠ .loadState i := by
    intro htid ha
    rw [hown htid (by rw [ha]; rfl)] at hlook
    cases hlook
  rw [lastLook_push ha]
  exact h i m g₀ hlook

/-- The steps of the read, when the generations it loads are those of its look. -/
theorem Checked.readStep (h : Checked w c.tid g.read)
    (hcheck : ∀ i, G (.check i) → ∀ m e, lastLook c.tid i w.past = some (m, e) →
      w.mem.gen i = e.mem.gen i)
    (hexec : exec cfg c.tid a w.mem = some (r, s')) (hread : ReadStep G w.now w.mem g a r g') :
    Checked (w.push c a s') c.tid g'.read := by
  intro i m g₀ hlook
  cases hread with
  | @state j commit =>
      simp only [ReadView.look, Option.some.injEq, Prod.mk.injEq] at hlook
      obtain ⟨rfl, rfl, rfl⟩ := hlook
      exact ⟨⟨⟨c, .loadState j, w.mem⟩, by simp [lastLook, World.now],
        rfl⟩, by simp [ReadView.checked]⟩
  | gen read commit | after read commit =>
      simp only [ReadView.look, Option.some.injEq, Prod.mk.injEq] at hlook
      obtain ⟨rfl, rfl, rfl⟩ := hlook
      obtain ⟨⟨e, he, hgen⟩, -⟩ := h _ _ _ (by rw [read]; rfl)
      rw [lastLook_push (by simp)]
      refine ⟨⟨e, he, hgen⟩, fun u hu => ?_⟩
      simp only [exec, Option.some.injEq, Prod.mk.injEq] at hexec
      obtain ⟨hr, -⟩ := hexec
      simp only [ReadView.checked, Option.some.injEq] at hu
      rw [← hu, ← hr, hcheck _ commit _ _ he, hgen]
  | seq read | word read | done read =>
      simp only [ReadView.look, Option.some.injEq, Prod.mk.injEq] at hlook
      obtain ⟨rfl, rfl, rfl⟩ := hlook
      rw [lastLook_push (by simp)]
      have hold := h _ _ _ (by rw [read]; rfl)
      rw [read] at hold
      exact hold
  | miss => cases hlook

/-- What a read has checked is so throughout. -/
theorem trace_checked (hcheck : ∀ c w i, T.commits c w (.check i) →
      ∀ m e, lastLook c.tid i w.past = some (m, e) → w.mem.gen i = e.mem.gen i)
    (h : T.Trace w γ) : ∀ t, Checked w t (γ t).read := by
  induction h with
  | init => exact fun t i m g₀ hlook => by cases hlook
  | @start w γ t _ ih =>
      rw [Function.forall_update_iff γ fun u g => Checked w u g.read]
      exact ⟨fun i m g₀ hlook => (by cases hlook), fun u _ => ih u⟩
  | @act w γ c a r s g _ _ hexec hstep ih =>
      rw [Function.forall_update_iff γ fun u g => Checked (w.push c a s) u g.read]
      refine ⟨?_, fun u hu => (ih u).push fun h => absurd h.symm hu⟩
      rcases hstep.read_eq with hread | ⟨hsame, hsamples⟩
      · exact (ih c.tid).readStep (hcheck c w) hexec hread
      · rw [hsame]
        exact (ih c.tid).push fun _ ha => hsamples ha
  | stop _ _ ih => exact ih

/-- What a setting must know for its reads to be of the rows they saw. -/
structure Setting.Unrecycled (T : Setting n W PK Op Out) : Prop where
  sound : T.Sound
  agree : ∀ c w i, T.commits c w (.agree i) →
    refilled c.tid i w.past = false ∧ writesInAttempt c.tid i w.past < 2 ^ 31
  check : ∀ c w i, T.commits c w (.check i) →
    ∀ m e, lastLook c.tid i w.past = some (m, e) → w.mem.gen i = e.mem.gen i

/-- **A read that has delivered has copied an image of the row it saw**, and the generation
it has loaded is that of this row. -/
theorem trace_copied (hT : T.Unrecycled) (h : T.Trace w γ) {m g₀ : Nat} {checked : Option Nat}
    {buf : Image n W} (hgot : (γ t).read = .got i m g₀ checked buf) :
    (∀ u, checked = some u → u = g₀) ∧
      During w m w.now fun s => s.state i = .active ∧ s.gen i = g₀ ∧ s.seq i % 2 = 0 ∧
      s.data i = buf := by
  constructor
  · have hchecked := trace_checked hT.check h t
    rw [hgot] at hchecked
    exact (hchecked i m g₀ rfl).2
  · refine trace_got (R := fun i g₀ _ buf s => s.state i = .active ∧ s.gen i = g₀ ∧
      s.seq i % 2 = 0 ∧ s.data i = buf)
      ?_ (fun _ _ _ _ _ _ _ _ _ _ _ _ hR => hR) h t i m g₀ checked buf hgot
    intro w γ c i m g₀ checked m₁ buf htrace _ hcommit hread
    obtain ⟨hrefilled, hfew⟩ := hT.agree c w i hcommit
    have htime := trace_read_time htrace c.tid
    rw [hread] at htime
    exact (trace_undisturbed hT.sound htrace c.tid).agree hread htime hrefilled hfew

/-- Recycles up to an earlier moment are the same. -/
theorem recyclesAt_push {m : Nat} (hm : m ≤ w.now) :
    recyclesAt (w.push c a s') i m = recyclesAt w i m := by
  unfold recyclesAt
  rw [World.push_now, World.push_past, Nat.succ_sub hm, List.drop_succ_cons]

/-- There are no more recycles than accesses. -/
theorem recycles_le (i : Int) (past : List (CoreEntry n W PK Op)) :
    recycles i past ≤ past.length := by
  induction past with
  | nil => exact Nat.le_refl _
  | cons e es ih =>
      unfold recycles
      split
      · split <;> simp only [List.length_cons] <;> omega
      · exact ih.trans (Nat.le_succ _)

/-- There are no more of them earlier. -/
theorem recycles_drop_le (k : Nat) (past : List (CoreEntry n W PK Op)) :
    recycles i (past.drop k) ≤ recycles i past := by
  induction past generalizing k with
  | nil => simp
  | cons e es ih =>
      cases k with
      | zero => exact Nat.le_refl _
      | succ k =>
          rw [List.drop_succ_cons]
          refine (ih k).trans ?_
          conv_rhs => unfold recycles
          split
          · exact Nat.le_add_left _ _
          · exact Nat.le_refl _

/-- The generation of a slot and the number of its recycles. -/
structure Counted (w : CoreWorld n W PK Op Out) (i : Int) : Prop where
  gen : w.mem.gen i = recycles i w.past % 2 ^ 32
  new : ¬ w.mem.Grown i → recycles i w.past = 0

/-- Only a bump of the generation is a recycle. -/
theorem recycles_push_of_ne (ha : a ≠ .addGen i) :
    recycles i (w.push c a s').past = recycles i w.past := by
  simp only [World.push_past]
  conv_lhs => unfold recycles
  split
  · rename_i j heq
    have hj : j ≠ i := by
      rintro rfl
      exact ha heq
    rw [if_neg hj, Nat.zero_add]
  · rfl

/-- A step of a thread counts a recycle exactly when it bumps the generation. -/
theorem Counted.push (h : Counted w i) (hslots : Slots cfg w.mem γ)
    (hexec : exec cfg c.tid a w.mem = some (r, s'))
    (hstep : Step cfg K G w.now w.mem (γ c.tid) a r g') : Counted (w.push c a s') i := by
  have hgrows : w.mem.Grown i → s'.Grown i := fun hgrown => hgrown.step hslots hexec hstep
  have hsame : a ≠ .addGen i → s'.gen i = w.mem.gen i → Counted (w.push c a s') i := by
    intro hne hgen
    constructor
    · rw [recycles_push_of_ne hne, World.push_mem, hgen]
      exact h.gen
    · rw [recycles_push_of_ne hne]
      exact fun hnot => h.new fun hgrown => hnot (hgrows hgrown)
  rcases exec_slot i hexec with ⟨x, rfl, -, hgen, -⟩ | ⟨rfl, -, hgen, -⟩ | ⟨⟨j, x, rfl⟩, -, hgen⟩ |
    ⟨k, rfl, hk, hgen⟩ | ⟨hne, -, hgen, -⟩
  · exact hsame (by simp) hgen
  · have hcount : recycles i (w.push c (.addGen i) s').past = 1 + recycles i w.past := by
      simp [recycles]
    have hgrown : w.mem.Grown i := by
      rcases hstep.addGen with ⟨hphase, rfl⟩ | ⟨-, hmem⟩
      · exact (hslots.mine c.tid).grown _ (Or.inl ⟨by grind, rfl⟩)
      · exact ((hslots.mine c.tid).flipped i hmem).2
    refine ⟨?_, fun hnot => absurd (hgrows hgrown) hnot⟩
    rw [World.push_mem, hgen, h.gen, hcount]
    omega
  · exact hsame (by simp) hgen
  · -- the chunk is being built, so the slot has never been recycled
    have hzero := h.new (not_grown_of_initSlots hslots hstep hk)
    have hcount : recycles i (w.push c (.initSlots k) s').past = 0 :=
      (recycles_push_of_ne (by simp)).trans hzero
    exact ⟨by rw [World.push_mem, hgen, hcount, Nat.zero_mod], fun _ => hcount⟩
  · exact hsame hne hgen

/-- **The generation of a slot is the number of its recycles**, modulo `2 ^ 32`. -/
theorem trace_counted (hT : T.Sound) (h : T.Trace w γ) : ∀ i, Counted w i := by
  induction h with
  | init =>
      intro i
      obtain ⟨data, hdata⟩ := hT.1
      refine ⟨?_, fun _ => rfl⟩
      show T.share.gen i = 0
      rw [hdata]
      rfl
  | start _ _ ih => exact ih
  | @act w γ c a r s g before _ hexec hstep ih =>
      exact fun i => (ih i).push (trace_slots hT.1 hT.2 before) hexec hstep
  | stop _ _ ih => exact fun i => ⟨(ih i).gen, (ih i).new⟩

/-- With fewer than `2 ^ 32` recycles, the generation of a slot at any moment is the number
of its recycles by then. -/
theorem gen_eq_recyclesAt (hT : T.Sound) (h : T.Trace w γ)
    (hfew : recycles i w.past < 2 ^ 32) {m : Nat}
    (hm : m ≤ w.now) : (w.memAt m).gen i = recyclesAt w i m := by
  obtain ⟨w', γ', htrace, hmem, hpast⟩ := h.at hm
  rw [← hmem, (trace_counted hT htrace i).gen, hpast]
  exact Nat.mod_eq_of_lt ((recycles_drop_le _ _).trans_lt hfew)

/-- A slot that was ACTIVE at some moment is a slot. -/
theorem ne_null_of_active_at (hT : T.Sound) (h : T.Trace w γ) {m : Nat} (hm : m ≤ w.now)
    (hactive : (w.memAt m).state i = .active) : i ≠ nullSlot := by
  obtain ⟨w', γ', htrace, hmem, -⟩ := h.at hm
  rw [← hmem] at hactive
  have hslots := trace_slots hT.1 hT.2 htrace
  exact grown_ne_null hslots.chunks (hslots.grown_of_active hactive)

end FastMem
