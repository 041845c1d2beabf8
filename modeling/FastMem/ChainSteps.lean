import FastMem.IndexChains

/-!
# What threads do to the chains

A thread takes its slot off a chain or puts it on one in several steps, under the lock of
the bucket: it walks along the chain, cell by cell, until it finds the slot; it redirects
the cell before the slot; it points the slot at the head of a chain and the head at the
slot.  Each of these steps keeps the chains in order, and so does every step of every
thread.
-/

namespace FastMem

open Conc

variable {n : Nat} {W PK Op Out : Type} {cfg : ShareCfg n W PK} {K : Kind → Prop}
  {G : Commit n W → Prop} {now t : Nat} {s s' : Share n W} {g g' : Role n W}
  {a : Act n W} {r : a.Res} {γ : Nat → Role n W} {C : Index}

/-- An update of one bucket leaves the others alone. -/
theorem update_update_of_ne {α β : Type} [DecidableEq α] (f : Nat → α → β) {k k' : Nat}
    {x y : α} (v : β)
    (h : ¬ (k' = k ∧ y = x)) : Function.update f k (Function.update (f k) x v) k' y = f k' y := by
  by_cases hk : k' = k
  · subst hk
    rw [Function.update_self, Function.update_of_ne fun hy => h ⟨rfl, hy⟩]
  · rw [Function.update_of_ne hk]

/-- The slot of a walk belongs in the bucket of the walk, or nowhere under its key. -/
theorem walking_map (h : g.Walking C s) {k b : Nat} (hwalk : g.walk.bucket = some (k, b)) :
    g.map k = some b ∨ g.map k = none := by
  unfold Role.Walking at h
  cases hw : g.walk with
  | none =>
    rw [hw] at hwalk
    cases hwalk
  | front k' b' x | cell k' b' =>
    rw [hw] at hwalk
    cases hwalk
    simp only [hw] at h
    exact Or.inr h.1
  | found k' b' link x | hit k' b' link | «at» k' b' x =>
    rw [hw] at hwalk
    cases hwalk
    simp only [hw] at h
    exact Or.inl h.1

/-- Nobody else walks along a chain whose lock is held. -/
theorem Locked.walk_ne (hl : Locked cfg s γ) {k b k' b' u : Nat}
    (held : Lock.bucket k b ∈ (γ t).locks) (hu : u ≠ t)
    (hwalk : (γ u).walk.bucket = some (k', b')) : ¬ (k' = k ∧ b' = b) := by
  intro hkb
  have hlock := ((hl.ok u).walk k' b' hwalk).1
  rw [hkb.1, hkb.2] at hlock
  exact hu (hl.eq hlock held)

/-- The slot of a walk is in no chain of the key but that of its bucket. -/
theorem InPlace.slot_ne (h : InPlace cfg K s γ C) (hl : Locked cfg s γ)
    (halone : MapsAlone γ) {k b b' u : Nat} (hwalk : (γ u).walk.bucket = some (k, b')) (hb : b' ≠ b)
    {p : Int} (hp : p ∈ C k b) :
    (γ u).slot ≠ p := by
  intro heq
  have hmaps : (γ u).Maps (γ u).slot := (hl.ok u).maps_of_walk fun hnone => by
    rw [hnone] at hwalk; cases hwalk
  rw [heq] at hmaps
  have hmap := (placed_of_maps halone hmaps).mp (h.placed k b p hp)
  rcases walking_map (h.walk u) hwalk with h' | h'
  · rw [hmap] at h'
    exact hb (Option.some.inj h').symm
  · rw [hmap] at h'
    cases h'

/-- The slot a thread has to itself is in the chains its map says. -/
theorem InPlace.map_of_mem (h : InPlace cfg K s γ C) (halone : MapsAlone γ) {i : Int}
    (ht : (γ t).Maps i) {k b : Nat} (hi : i ∈ C k b) : (γ t).map k = some b :=
  (placed_of_maps halone ht).mp (h.placed k b i hi)

/-- A thread goes on with its walk and changes no cell. -/
theorem InPlace.rewalk (h : InPlace cfg K s γ C) (halone : MapsAlone γ) {v : Walk}
    (hv : Role.Walking C s { γ t with walk := v }) :
    InPlace cfg K s (Function.update γ t { γ t with walk := v }) C := by
  have halone' : MapsAlone (Function.update γ t { γ t with walk := v }) :=
    mapsAlone_of_same halone fun _ => Iff.rfl
  exact h.still halone halone' rfl rfl (fun _ _ _ _ => Iff.rfl) hv (h.moved t)

/-- Where a slot belongs when its thread has changed its map under one key. -/
theorem placed_remap (halone : MapsAlone γ) (halone' : MapsAlone (Function.update γ t g'))
    (hmaps : (γ t).Maps (γ t).slot) (hmaps' : g'.Maps (γ t).slot) {k : Nat} {v : Option Nat}
    (hmap : g'.map = Function.update (γ t).map k v) (hstate : s'.state = s.state)
    (hdata : s'.data = s.data) {k' b' : Nat} {i : Int} :
    Placed cfg s' (Function.update γ t g') k' b' i ↔
      if k' = k ∧ i = (γ t).slot then v = some b' else Placed cfg s γ k' b' i := by
  by_cases hi : i = (γ t).slot
  · subst hi
    have hown : (Function.update γ t g' t).Maps (γ t).slot := by
      rw [Function.update_self]
      exact hmaps'
    rw [placed_of_maps halone' hown, placed_of_maps halone hmaps, Function.update_self, hmap]
    by_cases hk : k' = k
    · subst hk
      rw [Function.update_self, if_pos ⟨rfl, rfl⟩]
    · rw [Function.update_of_ne hk, if_neg fun h => hk h.1]
  · rw [if_neg fun h => hi h.2]
    have hnot : ¬ (γ t).Maps i := fun h => hi h.2.symm
    have hnot' : ¬ g'.Maps i := fun h => hi (h.2.symm.trans hmaps'.2)
    refine placed_update halone halone' fun _ => ?_
    simp only [Role.Places, hnot, hnot', hstate, hdata, false_and, false_or]

/-- What a walk has found does not change which slots are moved. -/
theorem maps_remap {v : Option Nat} {k : Nat} {i : Int} :
    Role.Maps { g with walk := .none, map := Function.update g.map k v } i ↔ g.Maps i := Iff.rfl

/-- A thread changes the chains of one key, and its map under that key with them. -/
theorem InPlace.remap (h : InPlace cfg K s γ C) (halone : MapsAlone γ) {k : Nat}
    {v : Option Nat} {C' : Index} (hmaps : (γ t).Maps (γ t).slot) (hstate : s'.state = s.state)
    (hdata : s'.data = s.data) (hindex : s'.Indexed C')
    (hmem : ∀ k' b' i, i ∈ C' k' b' ↔ if k' = k ∧ i = (γ t).slot then v = some b' else i ∈ C k' b')
    (hothers : ∀ u, u ≠ t → ∀ k' b', (γ u).walk.bucket = some (k', b') →
      C' k' b' = C k' b' ∧ s'.head k' b' = s.head k' b' ∧
        s'.next k' (γ u).slot = s.next k' (γ u).slot) :
    InPlace cfg K s'
      (Function.update γ t { γ t with walk := .none, map := Function.update (γ t).map k v })
      C' := by
  have halone' : MapsAlone
      (Function.update γ t { γ t with walk := .none, map := Function.update (γ t).map k v }) :=
    mapsAlone_of_same halone fun _ => maps_remap
  have hplaced : ∀ k' b' i, Placed cfg s' (Function.update γ t { γ t with
      walk := .none, map := Function.update (γ t).map k v }) k' b' i ↔
        if k' = k ∧ i = (γ t).slot then v = some b' else Placed cfg s γ k' b' i :=
    fun k' b' i => placed_remap halone halone' hmaps hmaps rfl hstate hdata
  constructor
  case index => exact hindex
  case placed =>
    intro k' b' i hi
    rw [hmem] at hi
    rw [hplaced]
    by_cases hki : k' = k ∧ i = (γ t).slot
    · rw [if_pos hki] at hi ⊢
      exact hi
    · rw [if_neg hki] at hi ⊢
      exact h.placed k' b' i hi
  case all =>
    intro hclear k' b' i hi
    rw [hplaced] at hi
    rw [hmem]
    by_cases hki : k' = k ∧ i = (γ t).slot
    · rw [if_pos hki] at hi ⊢
      exact hi
    · rw [if_neg hki] at hi ⊢
      exact h.all hclear k' b' i hi
  case walk =>
    rw [Function.forall_update_iff γ fun _ g => g.Walking C' s']
    exact ⟨walking_none rfl, fun u hu => (h.walk u).frame (hothers u hu)⟩
  case moved =>
    rw [Function.forall_update_iff γ fun _ g => g.phase = .move → ∃ new, g.target = some new ∧
      g.words = allWords new]
    exact ⟨h.moved t, fun u _ => h.moved u⟩

/-- A thread reads the cell after the slots `pre` of its chain. -/
theorem InPlace.walkTo (h : InPlace cfg K s γ C) (halone : MapsAlone γ)
    (hmaps : (γ t).Maps (γ t).slot) {k b : Nat} {pre post : List Int} (hL : C k b = pre ++ post)
    (hnot : (γ t).slot ∉ pre) (hmap : (γ t).map k = some b) :
    InPlace cfg K s
      (Function.update γ t ((γ t).walkTo k b (linkAfter b pre) (s.link k (linkAfter b pre))))
      C := by
  have hchain := link_after (hL ▸ h.index k b)
  unfold Role.walkTo
  by_cases hnull : s.link k (linkAfter b pre) = nullSlot
  · rw [if_pos hnull]
    have hpost : post = [] := by
      cases post with
      | nil => rfl
      | cons x post => exact absurd (hchain.1.symm.trans hnull) hchain.2.1
    have hout : ∀ b', (γ t).slot ∉ C k b' := by
      intro b' hmem
      have hb := h.map_of_mem halone hmaps hmem
      rw [hmap, Option.some.injEq] at hb
      rw [← hb, hL, hpost, List.append_nil] at hmem
      exact hnot hmem
    apply h.remap halone hmaps rfl rfl h.index
    · intro k' b' i
      split
      · rename_i hki
        rw [hki.1, hki.2]
        exact iff_of_false (hout b') nofun
      · exact Iff.rfl
    · exact fun _ _ _ _ _ => ⟨rfl, rfl, rfl⟩
  · rw [if_neg hnull]
    cases post with
    | nil => exact absurd hchain hnull
    | cons x post =>
      have hx : s.link k (linkAfter b pre) = x := hchain.1
      split
      · rename_i hslot
        rw [hx] at hslot
        subst hslot
        exact h.rewalk halone ⟨hmap, pre, post, hL, rfl⟩
      · rename_i hslot
        rw [hx] at hslot ⊢
        refine h.rewalk halone ⟨hmap, pre, post, hL, ?_⟩
        show (γ t).slot ∉ pre ++ [x]
        simp only [List.mem_append, List.mem_singleton, hnot, false_or]
        exact Ne.symm hslot

/-- A thread takes its slot off a chain. -/
theorem InPlace.cut (h : InPlace cfg K s γ C) (hl : Locked cfg s γ) (halone : MapsAlone γ)
    (hmaps : (γ t).Maps (γ t).slot) {k b : Nat} (held : Lock.bucket k b ∈ (γ t).locks)
    {pre post : List Int} (hL : C k b = pre ++ (γ t).slot :: post) (hmap : (γ t).map k = some b) :
    InPlace cfg K (s.setLink k (s.next k (γ t).slot) (linkAfter b pre))
      (Function.update γ t { γ t with walk := .none, map := Function.update (γ t).map k none })
      (C.set k b (pre ++ post)) := by
  have hchain := h.index k b
  have hnodup := hchain.nodup
  rw [hL] at hnodup
  obtain ⟨hnotpre, hnotpost⟩ : (γ t).slot ∉ pre ∧ (γ t).slot ∉ post := by
    have hnot := (List.nodup_middle.mp hnodup)
    have := (List.nodup_cons.mp hnot).1
    simp only [List.mem_append, not_or] at this
    exact this
  apply h.remap halone hmaps
  · cases linkAfter b pre <;> rfl
  · cases linkAfter b pre <;> rfl
  · exact indexed_cut h.index (fun b' hb p hp hmem => hb (h.disjoint halone k b' b p hmem
      (by rw [hL]; exact List.mem_append_left _ hp))) hL
  · intro k' b' i
    by_cases hkb : k' = k ∧ b' = b
    · obtain ⟨rfl, rfl⟩ := hkb
      rw [Index.set_self, hL]
      by_cases hi : i = (γ t).slot
      · rw [if_pos ⟨rfl, hi⟩, hi]
        simp [hnotpre, hnotpost]
      · rw [if_neg fun hki => hi hki.2]
        simp [hi]
    · rw [Index.set_of_ne _ _ hkb]
      by_cases hki : k' = k ∧ i = (γ t).slot
      · rw [if_pos hki]
        obtain ⟨rfl, rfl⟩ := hki
        refine iff_of_false (fun hmem => hkb ⟨rfl, ?_⟩) nofun
        have hb := h.map_of_mem halone hmaps hmem
        rw [hmap] at hb
        exact (Option.some.inj hb).symm
      · rw [if_neg hki]
  · intro u hu k' b' hwalk
    have hkb := hl.walk_ne held hu hwalk
    refine ⟨Index.set_of_ne _ _ hkb, ?_⟩
    rcases List.eq_nil_or_concat pre with rfl | ⟨pre', p, rfl⟩
    · rw [linkAfter_nil]
      exact ⟨update_update_of_ne s.head _ hkb, rfl⟩
    · rw [List.concat_eq_append, linkAfter_concat]
      refine ⟨rfl, update_update_of_ne s.next _ ?_⟩
      intro hslot
      obtain ⟨rfl, hslot⟩ := hslot
      have hp : p ∈ C k' b := by
        rw [hL]
        simp
      exact h.slot_ne hl halone hwalk (fun hb => hkb ⟨rfl, hb⟩) hp hslot

/-- A thread points the cell of its slot at the chain it is going to join. -/
theorem InPlace.point (h : InPlace cfg K s γ C) (hl : Locked cfg s γ) (halone : MapsAlone γ)
    (hmaps : (γ t).Maps (γ t).slot) {k b : Nat} (hmap : (γ t).map k = none) :
    InPlace cfg K
      (s.withIndex
        (Function.update s.next k (Function.update (s.next k) (γ t).slot (s.head k b))) s.head)
      (Function.update γ t { γ t with walk := .cell k b }) C := by
  have hout : ∀ b', (γ t).slot ∉ C k b' := by
    intro b' hmem
    have hb := h.map_of_mem halone hmaps hmem
    rw [hmap] at hb
    cases hb
  have halone' : MapsAlone (Function.update γ t { γ t with walk := .cell k b }) :=
    mapsAlone_of_same halone fun _ => Iff.rfl
  have hplaced : ∀ k' b' i,
      Placed cfg (s.withIndex (Function.update s.next k (Function.update (s.next k) (γ t).slot
      (s.head k b))) s.head) (Function.update γ t { γ t with walk := .cell k b }) k' b' i ↔
      Placed cfg s γ k' b' i :=
    fun k' b' i => placed_update halone halone' fun _ => Iff.rfl
  constructor
  case index =>
    intro k' b'
    by_cases hk : k' = k
    · subst hk
      simpa [Share.withIndex] using (h.index k' b').update (hout b') (s.head k' b)
    · simpa [Share.withIndex, hk] using h.index k' b'
  case placed => exact fun k' b' i hi => (hplaced k' b' i).mpr (h.placed k' b' i hi)
  case all => exact fun hclear k' b' i hi => h.all hclear k' b' i ((hplaced k' b' i).mp hi)
  case walk =>
    rw [Function.forall_update_iff γ fun _ g => g.Walking C (s.withIndex (Function.update s.next k
      (Function.update (s.next k) (γ t).slot (s.head k b))) s.head)]
    refine ⟨⟨hmap, ?_⟩, fun u hu => (h.walk u).frame fun k' b' hwalk => ⟨rfl, rfl, ?_⟩⟩
    · show Function.update s.next k _ k (γ t).slot = s.head k b
      rw [Function.update_self, Function.update_self]
    · have hu' : (γ u).Maps (γ u).slot := (hl.ok u).maps_of_walk fun hnone => by
        rw [hnone] at hwalk; cases hwalk
      have hne : (γ u).slot ≠ (γ t).slot := by
        intro heq
        rw [heq] at hu'
        exact hu (halone u t _ hu' hmaps)
      exact update_update_of_ne s.next _ fun hslot => hne hslot.2
  case moved =>
    rw [Function.forall_update_iff γ fun _ g => g.phase = .move → ∃ new, g.target = some new ∧
      g.words = allWords new]
    exact ⟨h.moved t, fun u _ => h.moved u⟩

/-- A thread puts its slot in front of a chain the slot already points at. -/
theorem InPlace.join (h : InPlace cfg K s γ C) (hsl : Slots cfg s γ) (hl : Locked cfg s γ)
    (halone : MapsAlone γ) (hmaps : (γ t).Maps (γ t).slot) {k b : Nat}
    (held : Lock.bucket k b ∈ (γ t).locks) (hmap : (γ t).map k = none)
    (hnext : s.next k (γ t).slot = s.head k b) :
    InPlace cfg K
      (s.withIndex s.next (Function.update s.head k (Function.update (s.head k) b (γ t).slot)))
      (Function.update γ t { γ t with walk := .none, map := Function.update (γ t).map k (some b) })
      (C.set k b ((γ t).slot :: C k b)) := by
  have hout : ∀ b', (γ t).slot ∉ C k b' := by
    intro b' hmem
    have hb := h.map_of_mem halone hmaps hmem
    rw [hmap] at hb
    cases hb
  have hne : (γ t).slot ≠ nullSlot := grown_ne_null hsl.chunks (hsl.grown_of_maps hmaps)
  apply h.remap halone hmaps
  · rfl
  · rfl
  · have hlink := indexed_link h.index hout (b := b) hne
    rw [← hnext, Function.update_eq_self, Function.update_eq_self] at hlink
    exact hlink
  · intro k' b' i
    by_cases hkb : k' = k ∧ b' = b
    · obtain ⟨rfl, rfl⟩ := hkb
      rw [Index.set_self]
      by_cases hi : i = (γ t).slot
      · rw [if_pos ⟨rfl, hi⟩]
        simp [hi]
      · rw [if_neg fun hki => hi hki.2]
        simp [hi]
    · rw [Index.set_of_ne _ _ hkb]
      by_cases hki : k' = k ∧ i = (γ t).slot
      · rw [if_pos hki]
        obtain ⟨rfl, rfl⟩ := hki
        refine iff_of_false (hout b') fun hb => hkb ⟨rfl, ?_⟩
        exact (Option.some.inj hb).symm
      · rw [if_neg hki]
  · intro u hu k' b' hwalk
    have hkb := hl.walk_ne held hu hwalk
    exact ⟨Index.set_of_ne _ _ hkb, update_update_of_ne s.head _ hkb, rfl⟩

/-- The last move of a row is made: it belongs where its new image says, and its thread no
longer has it to itself. -/
theorem InPlace.settle (h : InPlace cfg K s γ C) (halone : MapsAlone γ)
    (hphase : (γ t).phase = .move) (hactive : s.state (γ t).slot = .active) {new : Image n W}
    (htarget : (γ t).target = some new)
    (hseen : ∀ j x, (γ t).words j = some x → s.data (γ t).slot j = x)
    (hmap : (γ t).walk = .none ∧ (γ t).map = cfg.buckets new) :
    InPlace cfg K s (Function.update γ t { γ t with phase := .row }) C := by
  obtain ⟨new', htarget', hwords⟩ := h.moved t hphase
  rw [htarget, Option.some.injEq] at htarget'
  subst htarget'
  have hdata : s.data (γ t).slot = new := by
    funext j
    exact hseen j (new j) (by rw [hwords]; rfl)
  have halone' : MapsAlone (Function.update γ t { γ t with phase := .row }) := by
    have hold : ∀ u i, (Function.update γ t { γ t with phase := .row } u).Maps i →
      (γ u).Maps i := by
      intro u i hu
      by_cases hut : u = t
      · subst hut
        rw [Function.update_self] at hu
        exact absurd hu (not_maps rfl i)
      · rw [Function.update_of_ne hut] at hu
        exact hu
    intro u v i hu hv
    exact halone u v i (hold u i hu) (hold v i hv)
  refine h.handover (j := (γ t).slot) halone halone' rfl rfl ?_ ?_ ?_ ?_ ?_ ?_
  · exact fun x hx => hx.2.symm
  · exact fun x hx => absurd hx (not_maps rfl x)
  · exact fun x _ => ⟨rfl, rfl⟩
  · intro k b
    have hmaps : (γ t).Maps (γ t).slot := ⟨by rw [hphase]; rfl, rfl⟩
    rw [places_of_maps hmaps, hmap.2]
    refine (places_of_row (not_maps rfl _) ?_).trans ?_
    · exact hactive
    · exact iff_of_eq (congrArg (fun x => cfg.buckets x k = some b) hdata)
  · exact hmap.1
  · simp

/-- A clear resets the head of a chain. -/
theorem InPlace.reset (h : InPlace cfg K s γ C) (hl : Locked cfg s γ) {k b : Nat}
    (held : Lock.bucket k b ∈ (γ t).locks) (hwalk : (γ t).walk = .none) (hclear : K .clear) :
    InPlace cfg K
      (s.withIndex s.next (Function.update s.head k (Function.update (s.head k) b nullSlot))) γ
      (C.set k b []) := by
  have hother : ∀ k' b', ¬ (k' = k ∧ b' = b) →
      Function.update s.head k (Function.update (s.head k) b nullSlot) k' b' = s.head k' b' :=
    fun k' b' hkb => update_update_of_ne s.head _ hkb
  constructor
  case index =>
    intro k' b'
    by_cases hkb : k' = k ∧ b' = b
    · obtain ⟨rfl, rfl⟩ := hkb
      simp [Share.withIndex]
    · rw [Index.set_of_ne _ _ hkb]
      simp only [Share.withIndex, hother k' b' hkb]
      exact h.index k' b'
  case placed =>
    intro k' b' i hi
    by_cases hkb : k' = k ∧ b' = b
    · obtain ⟨rfl, rfl⟩ := hkb
      rw [Index.set_self] at hi
      cases hi
    · rw [Index.set_of_ne _ _ hkb] at hi
      exact h.placed k' b' i hi
  case all => exact fun hnot => absurd hclear hnot
  case walk =>
    intro u
    apply (h.walk u).frame
    intro k' b' hwalk'
    have hkb : ¬ (k' = k ∧ b' = b) := by
      by_cases hu : u = t
      · subst hu
        rw [hwalk] at hwalk'
        cases hwalk'
      · exact hl.walk_ne held hu hwalk'
    exact ⟨Index.set_of_ne _ _ hkb, hother k' b' hkb, rfl⟩
  case moved => exact h.moved

/-- What a step does to the chains: it leaves those alone whose lock its thread does not hold,
and unless it clears the table it moves no slot but the one its thread has to itself. -/
structure Role.Moves (K : Kind → Prop) (g : Role n W) (C C' : Index) : Prop where
  spares : ∀ k b, Lock.bucket k b ∉ g.locks → C' k b = C k b
  order : ¬ K .clear → ∀ k b,
    C' k b = C k b ∨ g.Maps g.slot ∧ (C' k b).filter (· ≠ g.slot) = (C k b).filter (· ≠ g.slot)

/-- No chain is moved. -/
theorem Role.Moves.refl (K : Kind → Prop) (g : Role n W) (C : Index) : g.Moves K C C :=
  ⟨fun _ _ _ => rfl, fun _ _ _ => Or.inl rfl⟩

/-- A thread changes a chain under its lock, and only where its own slot is. -/
theorem moves_set {k b : Nat} {L : List Int} (held : Lock.bucket k b ∈ g.locks)
    (horder : ¬ K .clear → g.Maps g.slot ∧ L.filter (· ≠ g.slot) = (C k b).filter (· ≠ g.slot)) :
    g.Moves K C (C.set k b L) := by
  refine ⟨fun k' b' hnot => Index.set_of_ne _ _ ?_, fun hclear k' b' => ?_⟩
  · rintro ⟨rfl, rfl⟩
    exact hnot held
  · by_cases hkb : k' = k ∧ b' = b
    · obtain ⟨rfl, rfl⟩ := hkb
      rw [Index.set_self]
      exact Or.inr (horder hclear)
    · exact Or.inl (Index.set_of_ne _ _ hkb)

/-- It takes its slot out. -/
theorem moves_cut {k b : Nat} {pre post : List Int} (held : Lock.bucket k b ∈ g.locks)
    (hmaps : g.Maps g.slot)
    (hL : C k b = pre ++ g.slot :: post) : g.Moves K C (C.set k b (pre ++ post)) :=
  moves_set held fun _ => ⟨hmaps, by simp [hL]⟩

/-- It puts its slot in front. -/
theorem moves_join {k b : Nat} (held : Lock.bucket k b ∈ g.locks) (hmaps : g.Maps g.slot) :
    g.Moves K C (C.set k b (g.slot :: C k b)) :=
  moves_set held fun _ => ⟨hmaps, by simp⟩

/-- A walk is along a chain whose lock is held, for a slot the thread has to itself. -/
theorem RoleOk.walk_maps (hok : RoleOk cfg g) {k b : Nat} (hwalk : g.walk.bucket = some (k, b)) :
    Lock.bucket k b ∈ g.locks ∧ g.Maps g.slot := by
  refine ⟨(hok.walk k b hwalk).1, hok.maps_of_walk fun hnone => ?_⟩
  rw [hnone] at hwalk
  cases hwalk

/-- A thread that has found its slot in a chain cuts it out. -/
theorem InPlace.cutFound (h : InPlace cfg K s γ C) (hsl : Slots cfg s γ) (hl : Locked cfg s γ)
    {k b : Nat} {link : Link} {nx : Int} (walk : (γ t).walk = .found k b link nx) :
    ∃ C', InPlace cfg K (s.setLink k nx link)
      (Function.update γ t { γ t with walk := .none, map := Function.update (γ t).map k none }) C' ∧
      (γ t).Moves K C C' := by
  obtain ⟨held, hm⟩ := (hl.ok t).walk_maps (k := k) (b := b) (by rw [walk]; rfl)
  have hw := h.walk t
  simp only [Role.Walking, walk] at hw
  obtain ⟨hmap, hnx, pre, post, hL, hlink⟩ := hw
  have hcut := h.cut hl (hsl.mapsAlone hl) hm held hL hmap
  rw [← hlink, hnx] at hcut
  exact ⟨_, hcut, moves_cut held hm hL⟩

/-- A thread puts its slot in front of a chain; with the last key of an update the row is
where its new image belongs. -/
theorem InPlace.joinFront (h : InPlace cfg K s γ C) (hsl : Slots cfg s γ) (hl : Locked cfg s γ)
    (him : Images s γ) {k b : Nat} {p : Phase} (walk : (γ t).walk = .cell k b)
    (after : p = (γ t).phase ∨ (γ t).phase = .move ∧ p = .row ∧
      ∃ new, (γ t).target = some new ∧ Function.update (γ t).map k (some b) = cfg.buckets new) :
    ∃ C', InPlace cfg K
      (s.withIndex s.next (Function.update s.head k (Function.update (s.head k) b (γ t).slot)))
      (Function.update γ t
        { γ t with walk := .none, map := Function.update (γ t).map k (some b), phase := p }) C' ∧
      (γ t).Moves K C C' := by
  have halone := hsl.mapsAlone hl
  obtain ⟨held, hm⟩ := (hl.ok t).walk_maps (k := k) (b := b) (by rw [walk]; rfl)
  have hw := h.walk t
  simp only [Role.Walking, walk] at hw
  have hjoin := h.join hsl hl halone hm held hw.1 hw.2
  rcases after with rfl | ⟨hphase, rfl, new, htarget, hmap⟩
  · exact ⟨_, hjoin, moves_join held hm⟩
  · let γ₁ :=
      Function.update γ t { γ t with walk := .none, map := Function.update (γ t).map k (some b) }
    have hself : γ₁ t = { γ t with walk := .none, map := Function.update (γ t).map k (some b) } :=
      Function.update_self ..
    have halone₁ : MapsAlone γ₁ := mapsAlone_of_same halone fun _ => maps_remap
    have hphase₁ : (γ₁ t).phase = .move := by rw [hself]; exact hphase
    have hactive₁ : s.state (γ₁ t).slot = .active := by
      rw [hself]
      exact (hsl.mine t).active (by rw [hphase]; rfl)
    have htarget₁ : (γ₁ t).target = some new := by rw [hself]; exact htarget
    have hseen₁ : ∀ j x, (γ₁ t).words j = some x → s.data (γ₁ t).slot j = x := by
      rw [hself]
      exact (him.seen t).words (by rw [hphase]; rfl)
    have hmap₁ : (γ₁ t).walk = .none ∧ (γ₁ t).map = cfg.buckets new := by
      rw [hself]; exact ⟨rfl, hmap⟩
    have hdone := hjoin.settle halone₁ hphase₁ hactive₁ htarget₁ hseen₁ hmap₁
    rw [Function.update_idem, Function.update_self] at hdone
    exact ⟨_, hdone, moves_join held hm⟩

/-- Every change of a chain keeps the chains in place. -/
theorem InPlace.chainStep (h : InPlace cfg K s γ C) (hsl : Slots cfg s γ) (hl : Locked cfg s γ)
    (him : Images s γ) (hindex : K .index) (hexec : exec cfg t a s = some (r, s'))
    (hstep : ChainStep cfg K (γ t) a r g') :
    ∃ C', InPlace cfg K s' (Function.update γ t g') C' ∧ (γ t).Moves K C C' := by
  have halone := hsl.mapsAlone hl
  have hsame : (γ t).Moves K C C := Role.Moves.refl K (γ t) C
  have hok := hl.ok t
  have hw := h.walk t
  cases hstep with
  | @enter k b r held walk phase map =>
    cases hexec
    have hstart : C k b = [] ++ C k b := rfl
    exact ⟨C, h.walkTo halone ⟨by grind, rfl⟩ hstart (by simp) map, hsame⟩
  | @next k b p r walk =>
    cases hexec
    obtain ⟨-, hm⟩ := hok.walk_maps (k := k) (b := b) (by rw [walk]; rfl)
    simp only [Role.Walking, walk] at hw
    obtain ⟨hmap, pre, post, hL, hnot⟩ := hw
    have hpassed : C k b = (pre ++ [p]) ++ post := by
      rw [hL]
      simp
    have hgo := h.walkTo halone hm hpassed hnot hmap
    rw [linkAfter_concat] at hgo
    exact ⟨C, hgo, hsame⟩
  | @after k b link r walk =>
    cases hexec
    simp only [Role.Walking, walk] at hw
    obtain ⟨hmap, pre, post, hL, hlink⟩ := hw
    exact ⟨C, h.rewalk halone ⟨hmap, rfl, pre, post, hL, hlink⟩, hsame⟩
  | @cutHead k b nx walk =>
    cases hexec
    exact h.cutFound hsl hl walk
  | @cutNext k b p nx walk =>
    cases hexec
    exact h.cutFound hsl hl walk
  | @front k b r held walk phase key map =>
    cases hexec
    exact ⟨C, h.rewalk halone ⟨map, rfl⟩, hsame⟩
  | @point k b x walk =>
    cases hexec
    obtain ⟨-, hm⟩ := hok.walk_maps (k := k) (b := b) (by rw [walk]; rfl)
    simp only [Role.Walking, walk] at hw
    obtain ⟨hmap, hhead⟩ := hw
    have hpoint := h.point hl halone hm (b := b) hmap
    rw [hhead] at hpoint
    exact ⟨C, hpoint, hsame⟩
  | @join k b p walk after fresh =>
    cases hexec
    exact h.joinFront hsl hl him walk after
  | @reset k b kind mutex held phase =>
    cases hexec
    rw [Function.update_eq_self]
    exact ⟨_, h.reset hl held (walk_none_of_bucket (hok.settled (Or.inl phase)).2.2) kind,
      moves_set held fun hclear => absurd kind hclear⟩
  | looseHead kind => exact absurd hindex kind
  | looseNext kind => exact absurd hindex kind

/-- **Every step keeps the chains in order**, if an image is rewritten by a thread that
knows the buckets it has, and a clear flips no slot that is in a chain. -/
theorem InPlace.step (h : InPlace cfg K s γ C) (hsl : Slots cfg s γ) (hl : Locked cfg s γ)
    (him : Images s γ) (hsl' : Slots cfg s' (Function.update γ t g'))
    (hl' : Locked cfg s' (Function.update γ t g')) (hindex : K .index)
    (hwrite : ∀ i old new, G (.write i old new) → cfg.buckets (s.data i) = cfg.buckets old)
    (hflip : ∀ i, G (.flip i) → ∀ k b, i ∉ C k b) (hexec : exec cfg t a s = some (r, s'))
    (hstep : Step cfg K G now s (γ t) a r g') :
    ∃ C', InPlace cfg K s' (Function.update γ t g') C' ∧ (γ t).Moves K C C' := by
  have halone := hsl.mapsAlone hl
  have halone' := hsl'.mapsAlone hl'
  have hok := hl.ok t
  -- a step that changes neither a chain nor a row
  have hsame : OffChain (γ t) g' → s'.next = s.next → s'.head = s.head → s'.state = s.state →
      s'.data = s.data →
      ∃ C', InPlace cfg K s' (Function.update γ t g') C' ∧ (γ t).Moves K C C' := by
    intro hun hnext hhead hstate hdata
    refine ⟨C, h.offChain hok halone halone' hun hnext hhead fun i _ => ?_,
      Role.Moves.refl K (γ t) C⟩
    rw [hstate, hdata]
    exact ⟨Iff.rfl, fun _ => rfl⟩
  have hlooks : a.passive = true → OffChain (γ t) g' →
      ∃ C', InPlace cfg K s' (Function.update γ t g') C' ∧ (γ t).Moves K C C' := by
    intro hpassive hun
    obtain ⟨_, _, _, rfl⟩ := exec_passive hpassive hexec
    exact hsame hun rfl rfl rfl rfl
  cases hstep with
  | lock hst =>
    have hun := offChain_lockStep hst
    have howner : ∀ o l, InPlace cfg K (s.setOwner o l) (Function.update γ t g') C := by
      intro o l
      refine h.offChain hok halone halone' hun ?_ ?_ fun i _ => ?_
      · cases l <;> rfl
      · cases l <;> rfl
      · cases l <;> exact ⟨Iff.rfl, fun _ => rfl⟩
    cases hst with
    | lock l | lockAnew l phase =>
      simp only [exec] at hexec
      split at hexec
      · cases hexec
        exact ⟨C, howner _ _, Role.Moves.refl K (γ t) C⟩
      · cases hexec
    | _ =>
      cases hexec
      exact ⟨C, howner _ _, Role.Moves.refl K (γ t) C⟩
  | view hst =>
    apply hlooks ?_ (offChain_viewStep hst)
    cases hst with
    | look passive unread => exact passive
    | _ => rfl
  | free hst => exact ⟨C, h.freeStep hsl hl hsl' hl' hexec hst, Role.Moves.refl K (γ t) C⟩
  | grow hst => exact ⟨C, h.growStep hsl hl hsl' hl' hexec hst, Role.Moves.refl K (γ t) C⟩
  | slot hst => exact ⟨C, h.slotStep hsl hl him hsl' hl' hflip hexec hst, Role.Moves.refl K (γ t) C⟩
  | image hst =>
      exact ⟨C, h.imageStep hsl hl him hsl' hl' hindex hwrite hexec hst, Role.Moves.refl K (γ t) C⟩
  | chain hst => exact h.chainStep hsl hl him hindex hexec hst
  | dup hst =>
    apply hlooks ?_ (offChain_dupStep hst)
    cases hst <;> rfl
  | read hst =>
    apply hlooks ?_ (offChain_readStep hst)
    cases hst with
    | miss passive => exact passive
    | _ => rfl
  | note hst =>
    apply hlooks ?_ (offChain_noteStep hst)
    cases hst <;> rfl

variable {T : Setting n W PK Op Out} {w : World (coreSig n W PK) (Share n W) Op Out}

/-- A setting keeps track of the chains: an image is rewritten by a thread that knows the
buckets it has, and a clear flips a slot that no delete is in the middle of and that is in
no chain. -/
structure Setting.Tracks (T : Setting n W PK Op Out) : Prop where
  index : T.kinds .index
  write : ∀ c w i old new, T.commits c w (.write i old new) →
    T.cfg.buckets (w.mem.data i) = T.cfg.buckets old
  apart : T.ClearsApart
  flip : ∀ c w i, T.commits c w (.flip i) → ∀ C, w.mem.Indexed C → ∀ k b, i ∉ C k b

/-- A thread that begins a call is nowhere. -/
theorem offChain_start (now : Nat) (g : Role n W) : OffChain g (T.rules.start now g) :=
  { OffChain.refl g with }

/-- **The chains are in order along every trace** that starts with the chains in order. -/
theorem trace_chains (hstart : T.Started) (htrack : T.Tracks)
    (hchains : ∃ C, InPlace T.cfg T.kinds T.share (fun _ => Role.init) C) (h : T.Trace w γ) :
    ∃ C, InPlace T.cfg T.kinds w.mem γ C := by
  induction h with
  | init => exact hchains
  | @start w γ t before ih =>
    obtain ⟨C, hC⟩ := ih
    have hl := trace_locked hstart.owner before
    have hsl := trace_slots_from hstart.owner hstart.slots htrack.apart before
    have hl' := trace_locked hstart.owner (.start t before)
    have hsl' := trace_slots_from hstart.owner hstart.slots htrack.apart (.start t before)
    exact ⟨C,
      hC.offChain (hl.ok t) (hsl.mapsAlone hl) (hsl'.mapsAlone hl')
      (offChain_start w.now (γ t)) rfl rfl fun i _ => ⟨Iff.rfl, fun _ => rfl⟩⟩
  | @act w γ c a r s g before meets hexec hstep ih =>
    obtain ⟨C, hC⟩ := ih
    have after := Trace.act before meets hexec hstep
    obtain ⟨C', hC', -⟩ := hC.step (trace_slots_from hstart.owner hstart.slots htrack.apart before)
      (trace_locked hstart.owner before) (trace_images_from hstart htrack.apart before)
      (trace_slots_from hstart.owner hstart.slots htrack.apart after)
      (trace_locked hstart.owner after) htrack.index
      (fun i old new => htrack.write c w i old new) (fun i hi => htrack.flip c w i hi C hC.index)
      hexec hstep
    exact ⟨C', hC'⟩
  | stop _ _ ih => exact ih

/-- The chains of a share just initialised. -/
theorem inPlace_fresh (cfg : ShareCfg n W PK) (K : Kind → Prop) (data : Int → Image n W) :
    InPlace cfg K (Share.fresh data) (fun _ => Role.init) fun _ _ => [] := by
  have hinit : ∀ i, ¬ (Role.init : Role n W).Maps i := fun i => not_maps rfl i
  constructor
  case index => exact fun _ _ => rfl
  case placed => exact fun _ _ _ hi => nomatch hi
  case all =>
    intro _ k b i hi
    rcases hi with ⟨t, ht, -⟩ | ⟨-, hst, -⟩
    · exact absurd ht (hinit i)
    · cases hst
  case walk => exact fun _ => walking_none rfl
  case moved => exact fun _ hp => nomatch hp

end FastMem
