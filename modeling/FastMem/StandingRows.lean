import FastMem.StoreIntegrity
import FastMem.Timeline

/-!
# Rows that stand

While a thread holds the lock of a bucket, the chain of the bucket stays as the thread left
it, whatever the others do.  A row that nobody has locked at some moment and that is neither
rewritten nor deleted from then on *stands*: it keeps its image and its place in the chains of
this image, and the rows that stand keep their order in a chain.

These are facts about the moments of a time line.  Each is proved of one step, with what all
threads know of the chains, and then of any number of steps.
-/

namespace FastMem

open Conc

variable {n : Nat} {W PK Op Out : Type} {T : Setting n W PK Op Out} {w : CoreWorld n W PK Op Out}
  {γ : Nat → Role n W} {C : Index} {t k b m m' stop : Nat} {i : Int}
    {img : Image n W} {L : List Int}

/-- A setting whose slots are in order from the start, and whose clears leave them so. -/
structure Setting.Orders (T : Setting n W PK Op Out) : Prop where
  started : T.Started
  apart : T.ClearsApart

/-- A setting whose share has its chains in order from the start, keeps track of them and never
clears them. -/
structure Setting.Indexes (T : Setting n W PK Op Out) : Prop where
  started : T.Started
  tracks : T.Tracks
  chains : ∃ C, InPlace T.cfg T.kinds T.share (fun _ => Role.init) C
  kept : ¬ T.kinds .clear

/-- Runs with sound chains keep their slots in order. -/
theorem Setting.Indexes.orders (hT : T.Indexes) : T.Orders := ⟨hT.started, hT.tracks.apart⟩

/-- What is known of the slots at every moment of a trace. -/
structure Tidy (T : Setting n W PK Op Out) (w : CoreWorld n W PK Op Out)
    (γ : Nat → Role n W) : Prop where
  slots : Slots T.cfg w.mem γ
  locked : Locked T.cfg w.mem γ
  images : Images w.mem γ

/-- The slots are in order throughout. -/
theorem trace_tidy (hT : T.Orders) (h : T.Trace w γ) : Tidy T w γ :=
  ⟨trace_slots_from hT.started.owner hT.started.slots hT.apart h, trace_locked hT.started.owner h,
    trace_images_from hT.started hT.apart h⟩

/-- What is known of the slots and the chains. -/
structure Orderly (T : Setting n W PK Op Out) (w : CoreWorld n W PK Op Out) (γ : Nat → Role n W)
    (C : Index) : Prop extends Tidy T w γ where
  place : InPlace T.cfg T.kinds w.mem γ C

/-- The chains are in order throughout. -/
theorem trace_orderly (hT : T.Indexes) (h : T.Trace w γ) : ∃ C, Orderly T w γ C := by
  obtain ⟨C, hC⟩ := trace_chains hT.started hT.tracks hT.chains h
  exact ⟨C, trace_tidy hT.orders h, hC⟩

/-- What one step of a trace does to the chains. -/
theorem Orderly.step (hC : Orderly T w γ C) (hT : T.Indexes) (h : T.Trace w γ) {c : Call Op}
    {a : Act n W} {r : a.Res} {s : Share n W} {g : Role n W} (meets : T.meets c a w)
    (hexec : exec T.cfg c.tid a w.mem = some (r, s)) (hstep : T.rules.step c w (γ c.tid) a r g) :
    ∃ C', Orderly T (w.push c a s) (Function.update γ c.tid g) C' ∧
    (γ c.tid).Moves T.kinds C C' := by
  have hafter := trace_tidy hT.orders (.act h meets hexec hstep)
  obtain ⟨C', hC', hmoves⟩ :=
    hC.place.step hC.slots hC.locked hC.images hafter.slots hafter.locked hT.tracks.index
    (fun i old new => hT.tracks.write c w i old new)
    (fun i hi => hT.tracks.flip c w i hi C hC.place.index) hexec hstep
  exact ⟨C', ⟨hafter, hC'⟩, hmoves⟩

/-- Thread `t` holds the lock of a bucket whose chain is `L`. -/
structure Share.HoldsChain (s : Share n W) (t k b : Nat) (L : List Int) : Prop where
  owner : s.owner (.bucket k b) = some t
  chain : IsChain nullSlot (s.next k) (s.head k b) L

/-- A thread that does nothing keeps the locks it has. -/
theorem trace_keeps_owner (hT : T.Orders) (h : T.Trace w γ) (hm : m < w.now)
    (hother : w.actor m ≠ some t) {l : Lock}
    (hown : (w.memAt m).owner l = some t) : (w.memAt (m + 1)).owner l = some t := by
  obtain ⟨w', γ', c, a, r, g, htrace, hnow, hmem, hactor, hmeets, hexec, hstep⟩ := h.act_at hm
  have hmem' : w'.mem = w.memAt m := by rw [← hmem m (Nat.le_refl m), ← hnow, World.memAt_now]
  rw [← hmem'] at hown
  have htid : t ≠ c.tid := by
    rintro rfl
    exact hother hactor
  have hheld : l ∈ (γ' t).locks := ((trace_tidy hT htrace).locked.owner _ _).mp hown
  apply ((trace_tidy hT (htrace.act hmeets hexec hstep)).locked.owner _ _).mpr
  rw [Function.update_of_ne htid]
  exact hheld

/-- Another thread's step leaves the lock and the chain as they are. -/
theorem Share.HoldsChain.step (hT : T.Indexes) (h : T.Trace w γ) (hm : m < w.now)
    (hother : w.actor m ≠ some t)
    (hold : (w.memAt m).HoldsChain t k b L) : (w.memAt (m + 1)).HoldsChain t k b L := by
  have hown := trace_keeps_owner hT.orders h hm hother hold.owner
  obtain ⟨w', γ', c, a, r, g, htrace, hnow, hmem, hactor, hmeets, hexec, hstep⟩ := h.act_at hm
  have hmem' : w'.mem = w.memAt m := by rw [← hmem m (Nat.le_refl m), ← hnow, World.memAt_now]
  rw [← hmem'] at hold
  have htid : t ≠ c.tid := by
    rintro rfl
    exact hother hactor
  obtain ⟨C, hC⟩ := trace_orderly hT htrace
  obtain ⟨C', hC', hmoves⟩ := hC.step hT htrace hmeets hexec hstep
  have hheld : Lock.bucket k b ∈ (γ' t).locks := (hC.locked.owner _ _).mp hold.owner
  have hfree : Lock.bucket k b ∉ (γ' c.tid).locks := fun hmine => htid (hC.locked.eq hheld hmine)
  have hsame := hmoves.spares k b hfree
  refine ⟨hown, ?_⟩
  rw [IsChain.unique hold.chain (hC.place.index k b), ← hsame]
  exact hC'.place.index k b

/-- A thread that does nothing finds the chain it holds as it left it. -/
theorem Share.HoldsChain.pause (hT : T.Indexes) (h : T.Trace w γ)
    (hold : (w.memAt m).HoldsChain t k b L) (hpause : Pauses (w.line stop) t m m')
    (hm' : m' ≤ w.now) : (w.memAt m').HoldsChain t k b L :=
  hpause.keeps (P := fun j => (w.memAt j).HoldsChain t k b L) hold fun _ _ hlt hother hj =>
    hj.step hT h (by omega) hother

/-- From time `m` to time `m'` the slot `i` is ACTIVE and has the sequence number it had; `img`
is its image at `m`. -/
structure Unwritten (mem : Nat → Share n W) (i : Int) (img : Image n W) (m m' : Nat) : Prop where
  image : (mem m).data i = img
  active : ∀ j, m ≤ j → j ≤ m' → (mem j).state i = .active
  seq : ∀ j, m ≤ j → j ≤ m' → (mem j).seq i = (mem m).seq i

/-- From time `m` to time `m'` the row in slot `i` stands, with image `img`: at `m` nobody has
its wlock, and from then on it is ACTIVE and has the sequence number it had. -/
structure Stands (mem : Nat → Share n W) (i : Int) (img : Image n W) (m m' : Nat) : Prop
    extends Unwritten mem i img m m' where
  free : (mem m).owner (.row i) = none

/-- A row unwritten for some time is so for part of it. -/
theorem Unwritten.until {mem : Nat → Share n W} (h : Unwritten mem i img m m')
    {j : Nat} (hj : j ≤ m') : Unwritten mem i img m j :=
  ⟨h.image, fun x hx hxj => h.active x hx (hxj.trans hj), fun x hx hxj => h.seq x hx (hxj.trans hj)⟩

/-- It stands at the moments in between as well. -/
theorem Stands.until {mem : Nat → Share n W} (h : Stands mem i img m m') {j : Nat} (hj : j ≤ m') :
    Stands mem i img m j :=
  ⟨h.toUnwritten.until hj, h.free⟩

/-- A row stands in any world with the same memories. -/
theorem Stands.congr {mem mem' : Nat → Share n W} (h : Stands mem i img m m') (hm : m ≤ m')
    (hmem : ∀ j, j ≤ m' → mem' j = mem j) : Stands mem' i img m m' := by
  constructor
  case free => rw [hmem m hm]; exact h.free
  case toUnwritten =>
    constructor
    case image => rw [hmem m hm]; exact h.image
    case active =>
      intro j hj hj'
      rw [hmem j hj']
      exact h.active j hj hj'
    case seq =>
      intro j hj hj'
      rw [hmem j hj', hmem m hm]
      exact h.seq j hj hj'

/-- A row is unwritten if it is ACTIVE with one sequence number all the time. -/
theorem unwritten_iff {mem : Nat → Share n W} :
    Unwritten mem i img m m' ↔ (mem m).data i = img ∧
      ∀ j, j < m' + 1 → m ≤ j → (mem j).state i = .active ∧ (mem j).seq i = (mem m).seq i := by
  constructor
  · intro h
    exact ⟨h.image, fun j hj hm => ⟨h.active j hm (Nat.le_of_lt_succ hj),
      h.seq j hm (Nat.le_of_lt_succ hj)⟩⟩
  · rintro ⟨himage, hrest⟩
    exact ⟨himage, fun j hm hj => (hrest j (Nat.lt_succ_of_le hj) hm).1,
      fun j hm hj => (hrest j (Nat.lt_succ_of_le hj) hm).2⟩

instance [DecidableEq (Image n W)] (mem : Nat → Share n W) (i : Int)
    (img : Image n W) (m m' : Nat) : Decidable (Unwritten mem i img m m') :=
  decidable_of_iff _ unwritten_iff.symm

/-- A row that stands is unwritten, and unlocked at the start. -/
theorem stands_iff {mem : Nat → Share n W} :
    Stands mem i img m m' ↔ Unwritten mem i img m m' ∧ (mem m).owner (.row i) = none :=
  ⟨fun h => ⟨h.toUnwritten, h.free⟩, fun ⟨hrow, hfree⟩ => ⟨hrow, hfree⟩⟩

instance [DecidableEq (Image n W)] (mem : Nat → Share n W) (i : Int)
    (img : Image n W) (m m' : Nat) : Decidable (Stands mem i img m m') :=
  decidable_of_iff _ stands_iff.symm

section

variable {cfg : ShareCfg n W PK} {K : Kind → Prop} {G : Commit n W → Prop} {now : Nat}
  {s s' : Share n W} {g g' : Role n W} {a : Act n W} {r : a.Res}

/-- A thread gets a row to itself for rewriting it by bumping the sequence number. -/
theorem Step.wasRewriting (h : Step cfg K G now s g a r g') (ha : a ≠ .addSeq i)
    (hphase : g'.phase = .write ∨ g'.phase = .move) (hslot : g'.slot = i) :
    g.phase.mapping = true ∧ g.slot = i := by
  cases h with
  | lock hs => cases hs <;> grind
  | view hs => cases hs <;> grind
  | free hs => cases hs <;> grind
  | grow hs => cases hs <;> grind
  | slot hs => cases hs <;> grind
  | image hs => cases hs <;> grind
  | chain hs => cases hs <;> grind
  | dup hs => cases hs <;> grind
  | read hs => cases hs <;> grind
  | note hs => cases hs <;> grind

/-- Slots that are mapped and not owned are being rewritten. -/
theorem Phase.rewriting_of_mapping {p : Phase} (h : p.mapping = true) (hown : p.owning = false) :
    p = .write ∨ p = .move := by
  grind

/-- A step that leaves a row ACTIVE and its sequence number as it is leaves its image as it is,
and gives the row to nobody. -/
theorem Step.leaves_row (hsl : Slots cfg s γ) (him : Images s γ)
    (hsl' : Slots cfg s' (Function.update γ t g')) (hexec : exec cfg t a s = some (r, s'))
    (hstep : Step cfg K G now s (γ t) a r g') (hnone : ∀ u, ¬ (γ u).Maps i)
    (hactive : s.state i = .active) (hactive' : s'.state i = .active) (hseq : s'.seq i = s.seq i) :
    (∀ u, ¬ (Function.update γ t g' u).Maps i) ∧ s'.data i = s.data i := by
  have hbump : a ≠ .addSeq i := by
    rintro rfl
    cases hexec
    simp only [Function.update_self] at hseq
    have := him.bound i
    omega
  refine ⟨fun u => ?_, ?_⟩
  · by_cases hu : u = t
    · subst hu
      rw [Function.update_self]
      rintro ⟨hp, hslot⟩
      have hm := hsl'.mine u
      rw [Function.update_self] at hm
      have hrewrites : g'.phase = .write ∨ g'.phase = .move := by
        have hnot : ¬ g'.Owns i := fun hown => hm.not_active hown hactive'
        apply Phase.rewriting_of_mapping hp
        cases hown : g'.phase.owning with
        | false => rfl
        | true => exact absurd (Or.inl ⟨hown, hslot⟩) hnot
      exact hnone u (hstep.wasRewriting hbump hrewrites hslot)
    · rw [Function.update_of_ne hu]
      exact hnone u
  · obtain ⟨ha, -⟩ | ⟨⟨j, x, rfl⟩, -⟩ | ⟨c, rfl, hc⟩ | ⟨-, -, -, hdata⟩ := exec_image i hexec
    · exact absurd ha hbump
    · obtain ⟨hslot, hphase⟩ := hstep.storeWord
      refine absurd ⟨?_, hslot⟩ (hnone t)
      obtain ⟨hp, -⟩ | hp := hphase
      · rw [hp]; rfl
      · rw [hp]; rfl
    · obtain ⟨-, -, hchunk⟩ := hstep.initSlots
      have hgrown := hsl.grown_of_active hactive
      exact absurd hgrown
        (not_grown_of_chunk hsl.chunks (hc.trans ((hsl.mine t).chunk c hchunk).symm))
    · exact hdata

end

/-- **A row that is not written keeps its image**, if nobody is in the middle of writing it. -/
theorem Unwritten.data (hT : T.Orders) (h : T.Trace w γ) (hrow : Unwritten w.memAt i img m m')
    (heven : (w.memAt m).seq i % 2 = 0) {j : Nat} (hj : m ≤ j) (hj' : j ≤ m') (hm' : m' ≤ w.now) :
    (w.memAt j).data i = img := by
  induction j, hj using Nat.le_induction with
  | base => exact hrow.image
  | succ y hy ih =>
    obtain ⟨w', γ', c, a, r, g, htrace, hnow, hmem, -, -, hexec, hstep⟩ :=
      h.act_at (m := y) (by omega)
    have hmem' : w'.mem = w.memAt y := by rw [← hmem y (Nat.le_refl y), ← hnow, World.memAt_now]
    have hC := trace_tidy hT htrace
    have hactive := hrow.active y hy (by omega)
    have hseq := hrow.seq y hy (by omega)
    have hnext := hrow.seq (y + 1) (by omega) hj'
    rw [← hmem'] at hactive hseq
    obtain ⟨rfl, hbump, -⟩ | ⟨⟨x, v, rfl⟩, -⟩ | ⟨k, rfl, hk⟩ | ⟨-, -, -, hdata⟩ :=
      exec_image i hexec
    · have := hC.images.bound i
      omega
    · have hodd := odd_of_storeWord hC.slots hC.images hstep rfl hactive
      omega
    · have hgrown := hC.slots.grown_of_active hactive
      exact absurd hgrown (not_grown_of_initSlots hC.slots hstep hk)
    · rw [hdata, hmem']
      exact ih (by omega)

/-- At its first moment nobody has a row that stands to himself. -/
theorem Stands.first (hT : T.Orders) (h : T.Trace w γ) (hstands : Stands w.memAt i img m m')
    (hm : m = w.now) (hm' : m ≤ m') : (∀ u, ¬ (γ u).Maps i) ∧ w.mem.data i = img := by
  have hC := trace_tidy hT h
  have hmem : w.memAt m = w.mem := by rw [hm, World.memAt_now]
  have hfree := hstands.free
  have himage := hstands.image
  have hactive := hstands.active m (Nat.le_refl m) hm'
  rw [hmem] at hfree himage hactive
  exact ⟨not_maps_of_unlocked hC.slots hC.locked hfree hactive, himage⟩

/-- **A row that stands keeps its image**, and nobody gets it to himself. -/
theorem trace_stands (hT : T.Orders) (h : T.Trace w γ) (hm : m ≤ w.now)
    (hstands : Stands w.memAt i img m w.now) : (∀ u, ¬ (γ u).Maps i) ∧ w.mem.data i = img := by
  induction h with
  | init => exact hstands.first hT .init (Nat.le_zero.mp hm) (Nat.le_zero.mp hm).le
  | @start w γ t before ih =>
    obtain ⟨hnone, hdata⟩ := ih hm hstands
    refine ⟨fun u => ?_, hdata⟩
    by_cases hu : u = t
    · subst hu
      rw [Function.update_self]
      exact hnone u
    · rw [Function.update_of_ne hu]
      exact hnone u
  | @act w γ c a r s g before meets hexec hstep ih =>
    by_cases hle : m ≤ w.now
    · have hmem : ∀ j, j ≤ w.now → (w.push c a s).memAt j = w.memAt j :=
        fun j hj => World.memAt_push hj c a s
      have hold : Stands w.memAt i img m w.now :=
        (hstands.until (Nat.le_succ _)).congr hle fun j hj => (hmem j hj).symm
      obtain ⟨hnone, hdata⟩ := ih hle hold
      have hC := trace_tidy hT before
      have hC' := trace_tidy hT (before.act meets hexec hstep)
      have hactive : w.mem.state i = .active := by
        have := hold.active w.now hle (Nat.le_refl _)
        rwa [World.memAt_now] at this
      have hactive' : s.state i = .active := by
        have := hstands.active (w.now + 1) (hle.trans (Nat.le_succ _)) (Nat.le_refl _)
        rwa [World.memAt_push_succ] at this
      have hseq : s.seq i = w.mem.seq i := by
        have h₁ := hstands.seq (w.now + 1) (hle.trans (Nat.le_succ _)) (Nat.le_refl _)
        have h₂ := hold.seq w.now hle (Nat.le_refl _)
        rw [World.memAt_push_succ, hmem m hle] at h₁
        rw [World.memAt_now] at h₂
        rw [h₁, h₂]
      obtain ⟨hnone', hdata'⟩ :=
        Step.leaves_row hC.slots hC.images hC'.slots hexec hstep hnone hactive hactive' hseq
      exact ⟨hnone', hdata'.trans hdata⟩
    · have heq : m = (w.push c a s).now := by
        have : m ≤ w.now + 1 := hm
        rw [World.push_now]
        omega
      exact hstands.first hT (.act before meets hexec hstep) heq heq.le
  | stop before returns ih => exact ih hm hstands

/-- A row that stands, at one of its moments. -/
theorem Stands.at (hT : T.Orders) (h : T.Trace w γ) (hstands : Stands w.memAt i img m m')
    {j : Nat} (hj : m ≤ j) (hj' : j ≤ m') (hm' : m' ≤ w.now) :
    ∃ w' γ', T.Trace w' γ' ∧ w'.mem = w.memAt j ∧ (∀ u, ¬ (γ' u).Maps i) ∧ w'.mem.data i = img := by
  obtain ⟨w', γ', htrace, hnow, hmem⟩ := h.upto (hj'.trans hm')
  have hold : Stands w'.memAt i img m w'.now := by
    rw [hnow]
    exact (hstands.until hj').congr hj hmem
  obtain ⟨hnone, hdata⟩ := trace_stands hT htrace (by rw [hnow]; exact hj) hold
  refine ⟨w', γ', htrace, ?_, hnone, hdata⟩
  rw [← hmem j (Nat.le_refl j), ← hnow, World.memAt_now]

/-- A row that stands keeps its image. -/
theorem Stands.data (hT : T.Orders) (h : T.Trace w γ) (hstands : Stands w.memAt i img m m')
    {j : Nat} (hj : m ≤ j) (hj' : j ≤ m') (hm' : m' ≤ w.now) : (w.memAt j).data i = img := by
  obtain ⟨w', γ', -, hmem, -, hdata⟩ := hstands.at hT h hj hj' hm'
  rw [← hmem]
  exact hdata

/-- A row that stands is in the chain of its image's bucket, under every key. -/
theorem Stands.mem_chain (hT : T.Indexes) (h : T.Trace w γ) (hstands : Stands w.memAt i img m m')
    {j : Nat} (hj : m ≤ j) (hj' : j ≤ m') (hm' : m' ≤ w.now) (hk : k < T.cfg.keys)
    (hchain : IsChain nullSlot ((w.memAt j).next k) ((w.memAt j).head k (T.cfg.keyBucket k img))
      L) : i ∈ L := by
  obtain ⟨w', γ', htrace, hmem, hnone, hdata⟩ := hstands.at hT.orders h hj hj' hm'
  obtain ⟨C, hC⟩ := trace_orderly hT htrace
  have hactive := hstands.active j hj hj'
  rw [← hmem] at hchain hactive
  rw [IsChain.unique hchain (hC.place.index k _), hC.place.mem_iff hT.kept hnone hk]
  exact ⟨hactive, by rw [hdata]⟩

/-- In the chain of a bucket slot `i` comes after slot `x`. -/
def Share.Behind (s : Share n W) (k b : Nat) (x i : Int) : Prop :=
  ∃ L, IsChain nullSlot (s.next k) (s.head k b) L ∧ [x, i].Sublist L

/-- A step that neither of two rows has been given to anybody for leaves them in their order. -/
theorem Role.Moves.behind {g : Role n W} {K : Kind → Prop} {C' : Index} (h : g.Moves K C C')
    (hclear : ¬ K .clear) {x : Int} (hx : ¬ g.Maps x) (hi : ¬ g.Maps i)
    (hbehind : [x, i].Sublist (C k b)) :
    [x, i].Sublist (C' k b) := by
  obtain hsame | ⟨hmaps, hfilter⟩ := h.order hclear k b
  · rw [hsame]
    exact hbehind
  · have hne : ∀ z, ¬ g.Maps z → decide (z ≠ g.slot) = true := by
      intro z hz
      apply decide_eq_true
      rintro rfl
      exact hz hmaps
    have hpair := hbehind.filter fun z => decide (z ≠ g.slot)
    have hself : ([x, i].filter fun z => decide (z ≠ g.slot)) = [x, i] :=
      List.filter_eq_self.mpr
        (List.forall_mem_cons.mpr ⟨hne x hx, List.forall_mem_singleton.mpr (hne i hi)⟩)
    rw [hself, ← hfilter] at hpair
    exact hpair.trans List.filter_sublist

/-- Rows that stand keep their order. -/
theorem Stands.behind (hT : T.Indexes) (h : T.Trace w γ) {x : Int} {img' : Image n W} {p p' : Nat}
    (hi : Stands w.memAt i img m m') (hx : Stands w.memAt x img' p p') {j j' : Nat}
    (hmj : m ≤ j) (hpj : p ≤ j) (hle : j ≤ j') (hjm : j' ≤ m') (hjp : j' ≤ p') (hm' : m' ≤ w.now)
    (hbehind : (w.memAt j).Behind k b x i) : (w.memAt j').Behind k b x i := by
  induction j', hle using Nat.le_induction with
  | base => exact hbehind
  | succ y hle ih =>
    obtain ⟨L, hL, hpair⟩ := ih (by omega) (by omega)
    obtain ⟨w', γ', c, a, r, g, htrace, hnow, hmem, -, hmeets, hexec, hstep⟩ :=
      h.act_at (m := y) (by omega)
    have hmem' : w'.mem = w.memAt y := by rw [← hmem y (Nat.le_refl y), ← hnow, World.memAt_now]
    obtain ⟨C, hC⟩ := trace_orderly hT htrace
    obtain ⟨C', hC', hmoves⟩ := hC.step hT htrace hmeets hexec hstep
    have hfree : ∀ {z : Int} {img : Image n W} {q q' : Nat},
        Stands w.memAt z img q q' → q ≤ y → y ≤ q' → ¬ (γ' c.tid).Maps z := by
      intro z img q q' hz hq hq'
      have hold : Stands w'.memAt z img q w'.now := by
        rw [hnow]
        exact (hz.until hq').congr hq hmem
      exact (trace_stands hT.orders htrace (by rw [hnow]; exact hq) hold).1 c.tid
    rw [← hmem'] at hL
    rw [IsChain.unique hL (hC.place.index k b)] at hpair
    refine ⟨C' k b, hC'.place.index k b, hmoves.behind hT.kept ?_ ?_ hpair⟩
    · exact hfree hx (by omega) (by omega)
    · exact hfree hi (by omega) (by omega)

end FastMem
