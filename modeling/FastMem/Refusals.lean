import Mathlib.Tactic.Tauto
import FastMem.Creation

/-!
# Refused allocations

What a core holds is a list of blocks, and `fm_core_free_share` gives back exactly these.
It reads the cells of the key array without a test, so it rests on that array whenever the
core has keys.  `fm_core_init_share` is described by the core that it leaves for every
pattern of grants, and from that `fm_create` with its `err` path: which refusals it gets
over, and what it returns.
-/

namespace FastMem.Creation

open Allocator

/-- The blocks of one key. -/
def KeyArrays.blocks (kc : KeyArrays) : List Nat := kc.head.toList ++ kc.locks.toList

/-- The blocks of one chunk. -/
def ChunkArrays.blocks (keys : Nat) (c : ChunkArrays) : List Nat :=
  c.slots.toList ++ match c.keyNext with
    | none => []
    | some keyNext =>
        (List.range keys).flatMap (fun k => (keyNext.cells k).toList) ++ [keyNext.block]

/-- The cell `i` of an array that may be absent. -/
def cellBlocks {α : Type} (blocks : α → List Nat) (array : Option (Block α)) (i : Nat) : List Nat :=
  match array with
  | none => []
  | some b => blocks (b.cells i)

/-- The blocks of a core, in the order in which `fm_core_free_share` frees them. -/
def CoreArrays.blocks (s : CoreArrays) : List Nat :=
  (List.range s.chunkCnt).flatMap (cellBlocks (ChunkArrays.blocks s.keys) s.chunks) ++
    ((s.chunks.map Block.block).toList ++
      ((List.range s.keys).flatMap (cellBlocks KeyArrays.blocks s.keydef) ++
        (s.keydef.map Block.block).toList))

/-- The arrays whose cells `fm_core_free_share` reads are present. -/
structure CoreArrays.Freeable (s : CoreArrays) : Prop where
  chunks : s.chunkCnt ≠ 0 → s.chunks ≠ none
  keydef : s.keys ≠ 0 → s.keydef ≠ none

variable {g : Nat → Bool} {m : Nat} {bs : List Nat} {s : CoreArrays}

/-- Freeing a chunk releases its blocks. -/
theorem freeChunk_releases (hs : s.chunks ≠ none) (i : Nat) :
    Does (Owns g m (cellBlocks (ChunkArrays.blocks s.keys) s.chunks i ++ bs)) (freeChunk s i)
      (fun _ => Owns g m bs) := by
  obtain ⟨chunks, hchunks⟩ := Option.ne_none_iff_exists'.mp hs
  simp only [freeChunk, hchunks, cellBlocks, ChunkArrays.blocks, List.append_assoc,
    deref_some, pure_bind]
  apply deallocIf_owns.bind
  intro _
  cases (chunks.cells i).keyNext with
  | none => exact Does.pure fun _ h => h
  | some keyNext =>
    have hcells : Does _ (rounds (fun k _ => deallocIf (keyNext.cells k)) s.keys ())
        (fun _ => Owns g m ([keyNext.block] ++ bs)) := rounds_releases fun k _ bs => deallocIf_owns
    simp only [List.append_assoc]
    exact hcells.bind fun _ => dealloc_owns

/-- Freeing a key releases its arrays. -/
theorem freeKey_releases (hs : s.keydef ≠ none) (k : Nat) :
    Does (Owns g m (cellBlocks KeyArrays.blocks s.keydef k ++ bs)) (freeKey s k)
      (fun _ => Owns g m bs) := by
  obtain ⟨keydef, hkeydef⟩ := Option.ne_none_iff_exists'.mp hs
  simp only [freeKey, hkeydef, cellBlocks, KeyArrays.blocks, List.append_assoc,
    deref_some, pure_bind]
  exact deallocIf_owns.bind fun _ => deallocIf_owns

/-- `fm_core_free_share` gives back what the core holds. -/
theorem fmCoreFreeShare_releases (hs : s.Freeable) :
    Does (Owns g m (s.blocks ++ bs)) (fmCoreFreeShare s) (fun _ => Owns g m bs) := by
  have hchunks : ∀ bs, Does (Owns g m ((List.range s.chunkCnt).flatMap
      (cellBlocks (ChunkArrays.blocks s.keys) s.chunks) ++ bs))
      (rounds (fun i _ => freeChunk s i) s.chunkCnt ()) (fun _ => Owns g m bs) := by
    intro bs
    apply rounds_releases
    intro i hi bs
    exact freeChunk_releases (hs.chunks (by omega)) i
  have hkeys : ∀ bs,
      Does (Owns g m ((List.range s.keys).flatMap (cellBlocks KeyArrays.blocks s.keydef) ++ bs))
      (rounds (fun k _ => freeKey s k) s.keys ()) (fun _ => Owns g m bs) := by
    intro bs
    apply rounds_releases
    intro k hk bs
    exact freeKey_releases (hs.keydef (by omega)) k
  simp only [fmCoreFreeShare, CoreArrays.blocks, List.append_assoc]
  apply (hchunks _).bind
  intro _
  apply deallocIf_owns.bind
  intro _
  apply (hkeys _).bind
  intro _
  apply deallocIf_owns.bind
  intro _
  exact Does.pure fun _ h => h

/-- Without a key array `fm_core_free_share` follows the null pointer. -/
theorem fmCoreFreeShare_faults (hcnt : s.chunkCnt = 0) (hkeys : s.keys ≠ 0) (hs : s.keydef = none) :
    Faults (fmCoreFreeShare s) := by
  have hkey : Faults (freeKey s 0) := by
    rw [freeKey, hs]
    exact deref_none.bind _
  have hloop : Faults (rounds (fun k _ => freeKey s k) s.keys ()) := Faults.rounds (by omega) hkey
  intro h
  simp only [fmCoreFreeShare, hcnt, rounds, pure_bind]
  exact (safe_deallocIf _).faults (fun _ h _ => hloop.bind _ h) trivial

/-- Freeing a chunk of an array that was allocated does not fault. -/
theorem safe_freeChunk (hs : s.chunks ≠ none) (i : Nat) : Safe (freeChunk s i) := by
  obtain ⟨chunks, hchunks⟩ := Option.ne_none_iff_exists'.mp hs
  simp only [freeChunk, hchunks, deref_some, pure_bind]
  apply (safe_deallocIf _).bind
  intro _
  cases (chunks.cells i).keyNext with
  | none => exact Safe.pure ()
  | some keyNext =>
    have hcells : Safe (rounds (fun k _ => deallocIf (keyNext.cells k)) s.keys ()) :=
      Safe.rounds fun k _ _ => safe_deallocIf _
    exact hcells.bind fun _ => safe_dealloc _

/-- Freeing a key of an array that was allocated does not fault. -/
theorem safe_freeKey (hs : s.keydef ≠ none) (k : Nat) : Safe (freeKey s k) := by
  obtain ⟨keydef, hkeydef⟩ := Option.ne_none_iff_exists'.mp hs
  simp only [freeKey, hkeydef, deref_some, pure_bind]
  exact (safe_deallocIf _).bind fun _ => safe_deallocIf _

/-- Freeing a share whose arrays are there does not fault. -/
theorem safe_fmCoreFreeShare (hs : s.Freeable) : Safe (fmCoreFreeShare s) := by
  have hchunks : Safe (rounds (fun i _ => freeChunk s i) s.chunkCnt ()) :=
    Safe.rounds fun i hi _ => safe_freeChunk (hs.chunks (by omega)) i
  have hkeys : Safe (rounds (fun k _ => freeKey s k) s.keys ()) :=
    Safe.rounds fun k hk _ => safe_freeKey (hs.keydef (by omega)) k
  apply hchunks.bind
  intro _
  apply (safe_deallocIf _).bind
  intro _
  apply hkeys.bind
  intro _
  exact (safe_deallocIf _).bind fun _ => Safe.pure _

/-- The arrays of key `k` when request `m` is the first one for a key. -/
def keyArraysAt (g : Nat → Bool) (m k : Nat) : KeyArrays :=
  ⟨granted g (m + 2 * k), granted g (m + 2 * k + 1)⟩

/-- A key takes two requests, whether they are granted or not. -/
theorem initKey_spec {nbuckets k : Nat} {keydef : Block KeyArrays} :
    Does (Owns g m bs) (initKey nbuckets k keydef)
      (fun keydef' h => keydef' = keydef.set k ⟨granted g m, granted g (m + 1)⟩ ∧
        Owns g (m + 2) (KeyArrays.blocks ⟨granted g m, granted g (m + 1)⟩ ++ bs) h) := by
  apply alloc_owns.bind
  intro head
  apply Does.given
  intro hhead
  subst hhead
  apply alloc_owns.bind
  intro locks
  apply Does.given
  intro hlocks
  subst hlocks
  have hperm : ((granted g (m + 1)).toList ++ ((granted g m).toList ++ bs)).Perm
      (KeyArrays.blocks ⟨granted g m, granted g (m + 1)⟩ ++ bs) := by
    rw [KeyArrays.blocks, ← List.append_assoc]
    exact List.perm_append_comm.append_right _
  split
  case isTrue => exact Does.pure fun h ho => ⟨rfl, ho.perm hperm⟩
  case isFalse hpresent =>
    simp only [Bool.or_eq_true, Option.isNone_iff_eq_none, not_or] at hpresent
    obtain ⟨head, hhead⟩ := Option.ne_none_iff_exists'.mp hpresent.1
    obtain ⟨locks, hlocks⟩ := Option.ne_none_iff_exists'.mp hpresent.2
    simp only [hhead, hlocks] at hperm ⊢
    have hfill : ∀ n, Does (Owns g (m + 1 + 1) ((some locks).toList ++ ((some head).toList ++ bs)))
        (rounds (fun _ _ => do
          let _ ← deref (some head)
          let _ ← deref (some locks)
          pure ()) n ())
            (fun _ => Owns g (m + 1 + 1) ((some locks).toList ++ ((some head).toList ++ bs))) :=
      fun n => Does.rounds (I := fun _ _ => _) fun k _ _ => Does.pure fun _ h => h
    exact (hfill _).bind fun _ => Does.pure fun h ho => ⟨rfl, ho.perm hperm⟩

/-- Storing a cell leaves the others alone. -/
theorem Block.set_cells_of_ne {α : Type} {b : Block α} {i j : Nat} {a : α} (h : j ≠ i) :
    (b.set i a).cells j = b.cells j := by
  show Function.update b.cells i a j = b.cells j
  rw [Function.update_of_ne h]

/-- A cell holds what was stored last. -/
@[simp] theorem Block.set_cells_self {α : Type} (b : Block α) (i : Nat) (a : α) :
    (b.set i a).cells i = a := by
  show Function.update b.cells i a i = a
  rw [Function.update_self]

/-- Storing a cell keeps the block. -/
@[simp] theorem Block.set_block {α : Type} (b : Block α) (i : Nat) (a : α) :
    (b.set i a).block = b.block := rfl

/-- What the rounds of `fm_core_init_share` before key `n` have made. -/
structure KeysMade (g : Nat → Bool) (m block n : Nat) (keydef : Block KeyArrays) : Prop where
  block : keydef.block = block
  cells : ∀ k < n, keydef.cells k = keyArraysAt g m k

/-- One more key is made. -/
theorem KeysMade.next {block n : Nat} {keydef : Block KeyArrays} (h : KeysMade g m block n keydef) :
    KeysMade g m block (n + 1) (keydef.set n (keyArraysAt g m n)) := by
  refine ⟨h.block, fun k hk => ?_⟩
  by_cases hkn : k = n
  · subst hkn
    simp
  · rw [Block.set_cells_of_ne hkn]
    exact h.cells k (by omega)

/-- The keys are made one after another, with two requests each. -/
theorem initKeys_spec {nbuckets n block : Nat} {zero : Nat → KeyArrays} :
    Does (Owns g m bs) (rounds (initKey nbuckets) n ⟨block, zero⟩)
      (fun keydef h => KeysMade g m block n keydef ∧
        Owns g (m + 2 * n)
          ((List.range n).flatMap (fun k => (keyArraysAt g m k).blocks) ++ bs) h) := by
  have hround : ∀ k < n, ∀ keydef, Does
      (fun h => KeysMade g m block k keydef ∧
        Owns g (m + 2 * k) ((List.range k).flatMap (fun k => (keyArraysAt g m k).blocks) ++ bs) h)
      (initKey nbuckets k keydef)
      (fun keydef h => KeysMade g m block (k + 1) keydef ∧
        Owns g (m + 2 * (k + 1))
          ((List.range (k + 1)).flatMap (fun k => (keyArraysAt g m k).blocks) ++ bs) h) := by
    intro k _ keydef
    apply Does.given
    intro hmade
    apply initKey_spec.imp fun _ ho => ho
    rintro keydef' h ⟨rfl, ho⟩
    refine ⟨hmade.next, ho.perm ?_⟩
    rw [List.range_succ, List.flatMap_append, List.flatMap_singleton, ← List.append_assoc]
    exact List.perm_append_comm.append_right _
  have hloop := Does.rounds (s := ⟨block, zero⟩) hround
  exact hloop.imp (fun h ho => ⟨⟨rfl, by simp⟩, by simpa using ho⟩) fun _ _ h => h

/-- How many requests `fm_core_init_share` makes for `n` keys, when its first one is number `m`. -/
def initRequests (g : Nat → Bool) (m n : Nat) : Nat :=
  if g m = false ∨ n = 0 then 1 else if g (m + 1) = false then 2 else 2 + 2 * n

/-- The core that `fm_core_init_share` leaves for `n` keys, when its first request is number `m`. -/
structure Initialised (g : Nat → Bool) (m n : Nat) (s : CoreArrays) : Prop where
  keys : s.keys = n
  chunkCnt : s.chunkCnt = 0
  chunks : s.chunks.map Block.block = granted g m
  keydef : s.keydef.map Block.block = if g m = false ∨ n = 0 then none else granted g (m + 1)
  arrays : ∀ keydef, s.keydef = some keydef → ∀ k < n, keydef.cells k = keyArraysAt g (m + 2) k

/-- The blocks of a core that has no key array. -/
theorem blocks_of_keydef_none (hcnt : s.chunkCnt = 0) (hs : s.keydef = none) :
    s.blocks = (s.chunks.map Block.block).toList := by
  have hcells : ∀ n, (List.range n).flatMap (cellBlocks KeyArrays.blocks none) = [] := by
    simp [cellBlocks]
  simp [CoreArrays.blocks, hcnt, hs, hcells]

/-- The blocks of the key arrays that have been made. -/
theorem KeysMade.blocks {block n : Nat} {keydef : Block KeyArrays}
    (h : KeysMade g m block n keydef) :
    (List.range n).flatMap (cellBlocks KeyArrays.blocks (some keydef)) =
      (List.range n).flatMap fun k => (keyArraysAt g m k).blocks := by
  apply List.flatMap_congr
  intro k hk
  rw [cellBlocks, h.cells k (List.mem_range.mp hk)]

/-- What `fm_core_init_share` has allocated when it returns. -/
theorem fmCoreInitShare_spec {n maxRecords nbuckets : Nat} :
    Does (Owns g m bs) (fmCoreInitShare n maxRecords nbuckets)
      (fun s h => Initialised g m n s ∧ Owns g (m + initRequests g m n) (s.blocks ++ bs) h) := by
  apply alloc_owns.bind
  intro r
  apply Does.given
  intro hr
  subst hr
  cases hg : g m with
  | false =>
    have hnone : granted g m = none := by simp [granted, hg]
    simp only [hnone]
    apply Does.pure
    intro h ho
    refine ⟨⟨rfl, rfl, hnone.symm, by simp [hg], by simp⟩, ?_⟩
    rw [blocks_of_keydef_none rfl rfl]
    simpa [initRequests, hg] using ho
  | true =>
    have hsome : granted g m = some m := by simp [granted, hg]
    simp only [hsome]
    split
    case isTrue hn =>
      apply Does.pure
      intro h ho
      refine ⟨⟨rfl, rfl, hsome.symm, by simp [hn], by simp⟩, ?_⟩
      rw [blocks_of_keydef_none rfl rfl]
      simpa [initRequests, hn] using ho
    case isFalse hn =>
      apply alloc_owns.bind
      intro r
      apply Does.given
      intro hr
      subst hr
      cases hg' : g (m + 1) with
      | false =>
        have hnone : granted g (m + 1) = none := by simp [granted, hg']
        simp only [hnone]
        apply Does.pure
        intro h ho
        refine ⟨⟨rfl, rfl, hsome.symm, by simp [hg, hn, hnone], by simp⟩, ?_⟩
        rw [blocks_of_keydef_none rfl rfl]
        simpa [initRequests, hg, hn, hg'] using ho
      | true =>
        have hsome' : granted g (m + 1) = some (m + 1) := by simp [granted, hg']
        simp only [hsome']
        apply initKeys_spec.bind
        intro keydef
        apply Does.given
        intro hmade
        apply Does.pure
        intro h ho
        refine ⟨⟨rfl, rfl, hsome.symm, by simp [hg, hn, hsome', hmade.block], ?_⟩, ?_⟩
        · intro keydef' heq k hk
          obtain rfl := Option.some.inj heq
          exact hmade.cells k hk
        · have hreq : m + initRequests g m n = m + 1 + 1 + 2 * n := by
            simp [initRequests, hg, hn, hg']
            omega
          rw [hreq]
          apply ho.perm
          simp only [CoreArrays.blocks, hmade.blocks, hmade.block, Option.map_some]
          apply List.perm_iff_count.mpr
          intro b
          simp only [List.range_zero, List.flatMap_nil, List.nil_append, List.count_append]
          omega

variable {n maxRecords : Nat}

/-- The error path of `fm_create` releases everything it has allocated. -/
theorem createErr_releases {s : ShareBlocks} (hs : s.core.Freeable) :
    Does (Owns g m (s.name.toList ++ (s.core.blocks ++ [s.block]))) (createErr (some s))
      (fun r h => r = none ∧ Owns g m [] h) := by
  apply deallocIf_owns.bind
  intro _
  apply (fmCoreFreeShare_releases hs).bind
  intro _
  apply dealloc_owns.bind
  intro _
  exact Does.pure fun _ h => ⟨rfl, h⟩

/-- It faults where freeing the share does. -/
theorem createErr_faults {share : ShareBlocks} (hs : Faults (fmCoreFreeShare share.core)) :
    Faults (createErr (some share)) := by
  intro h
  exact (safe_deallocIf share.name).faults (fun _ h _ => hs.bind _ h) trivial

/-- The number of the request for the name. -/
def nameRequest (g : Nat → Bool) (n : Nat) : Nat := 1 + initRequests g 1 n

/-- The requests whose refusal `fm_create` gets over without a fault. -/
def NoNullArray (g : Nat → Bool) (n : Nat) : Prop :=
  g 0 = true → n ≠ 0 → g 1 = true ∧ (g 2 = true ∨ g (nameRequest g n) = true)

/-- What `fm_create` leaves when it does not fault. -/
def CreateOutcome (g : Nat → Bool) (n : Nat) : Option ShareBlocks → Heap → Prop
  | none, h => (g 0 = false ∨ g 1 = false ∨ g (nameRequest g n) = false) ∧ ∃ m, Owns g m [] h
  | some share, _ =>
      Initialised g 1 n share.core ∧ g 0 = true ∧ g 1 = true ∧ g (nameRequest g n) = true

/-- The chunk array is there if the first request was granted. -/
theorem Initialised.chunks_ne_none (h : Initialised g m n s) (hg : g m = true) :
    s.chunks ≠ none := by
  intro hnone
  have hchunks := h.chunks
  simp [hnone, granted, hg] at hchunks

/-- It is not if the request was refused. -/
theorem Initialised.chunks_eq_none (h : Initialised g m n s) (hg : g m = false) :
    s.chunks = none := by
  have hchunks := h.chunks
  simpa [granted, hg] using hchunks

/-- The key array is there if the first two requests were granted. -/
theorem Initialised.keydef_ne_none (h : Initialised g m n s) (hg : g m = true) (hn : n ≠ 0)
    (hg' : g (m + 1) = true) : s.keydef ≠ none := by
  intro hnone
  have hkeydef := h.keydef
  simp [hnone, granted, hg, hn, hg'] at hkeydef

/-- The key array is missing if one of the two was refused, or there is no key. -/
theorem Initialised.keydef_eq_none (h : Initialised g m n s)
    (hg : g m = false ∨ n = 0 ∨ g (m + 1) = false) : s.keydef = none := by
  have hkeydef := h.keydef
  obtain hg | hn | hg := hg
  · simpa [hg] using hkeydef
  · simpa [hn] using hkeydef
  · simpa [granted, hg] using hkeydef

/-- A share can be freed if it has no key, or both arrays. -/
theorem Initialised.freeable (h : Initialised g m n s)
    (hs : n = 0 ∨ g m = true ∧ g (m + 1) = true) :
    s.Freeable := by
  refine ⟨fun hcnt => absurd h.chunkCnt hcnt, fun hkeys => ?_⟩
  have hn : n ≠ 0 := by
    rw [← h.keys]
    exact hkeys
  obtain hn' | hg := hs
  · exact absurd hn' hn
  · exact h.keydef_ne_none hg.1 hn hg.2

/-- Freeing a share with a key and without one of the arrays faults. -/
theorem Initialised.faults (h : Initialised g m n s) (hn : n ≠ 0)
    (hs : g m = false ∨ g (m + 1) = false) : Faults (fmCoreFreeShare s) := by
  have hkeys : s.keys ≠ 0 := by
    rw [h.keys]
    exact hn
  have hkeydef : s.keydef = none := h.keydef_eq_none (by tauto)
  exact fmCoreFreeShare_faults h.chunkCnt hkeys hkeydef

/-- Unless one array of a table with keys is missing, `fm_create` returns a whole share
or has released everything. -/
theorem fmCreate_outcome (hok : NoNullArray g n) :
    Does (Owns g 0 []) (fmCreate n maxRecords) (CreateOutcome g n) := by
  apply alloc_owns.bind
  intro r
  apply Does.given
  intro hr
  subst hr
  cases hg : g 0 with
  | false =>
    have hnone : granted g 0 = none := by simp [granted, hg]
    simp only [hnone]
    exact Does.pure fun h ho => ⟨Or.inl hg, 1, ho⟩
  | true =>
    have hsome : granted g 0 = some 0 := by simp [granted, hg]
    simp only [hsome]
    apply fmCoreInitShare_spec.bind
    intro core
    apply Does.given
    intro hinit
    cases hg1 : g 1 with
    | false =>
      have hchunks : core.chunks.isNone = true := by
        rw [hinit.chunks_eq_none hg1]
        rfl
      have hn : n = 0 := by
        by_contra hn
        exact absurd (hok hg hn).1 (by simp [hg1])
      rw [if_pos hchunks]
      have hfree : core.Freeable := hinit.freeable (Or.inl hn)
      have herr :=
        createErr_releases (g := g) (m := 0 + 1 + initRequests g (0 + 1) n)
          (s := ⟨0, none, core⟩) hfree
      apply herr.imp (fun _ ho => ho)
      intro r h hr
      obtain rfl := hr.1
      exact ⟨Or.inr (Or.inl hg1), _, hr.2⟩
    | true =>
      have hchunks : ¬ core.chunks.isNone = true := by
        simpa using hinit.chunks_ne_none hg1
      rw [if_neg hchunks]
      apply alloc_owns.bind
      intro r
      apply Does.given
      intro hr
      subst hr
      cases hname : g (nameRequest g n) with
      | false =>
        have hnone : granted g (0 + 1 + initRequests g (0 + 1) n) = none := by
          simpa [granted, nameRequest] using hname
        have hfree : core.Freeable := by
          apply hinit.freeable
          by_cases hn : n = 0
          · exact Or.inl hn
          · obtain hg2 | hname' := (hok hg hn).2
            · exact Or.inr ⟨hg1, hg2⟩
            · rw [hname] at hname'
              cases hname'
        simp only [hnone]
        have herr :=
          createErr_releases (g := g) (m := 0 + 1 + initRequests g (0 + 1) n + 1)
            (s := ⟨0, none, core⟩) hfree
        apply herr.imp (fun _ ho => ho)
        intro r h hr
        obtain rfl := hr.1
        exact ⟨Or.inr (Or.inr hname), _, hr.2⟩
      | true =>
        have hsome : granted g (0 + 1 + initRequests g (0 + 1) n) = some (nameRequest g n) := by
          simpa [granted, nameRequest] using hname
        simp only [hsome]
        exact Does.pure fun h ho => ⟨hinit, hg, hg1, hname⟩

/-- With one array missing it faults. -/
theorem fmCreate_faults (hbad : ¬ NoNullArray g n) : fmCreate n maxRecords
    (Heap.fresh g) = none := by
  simp only [NoNullArray, not_forall] at hbad
  obtain ⟨hg, hn, hbad⟩ := hbad
  apply alloc_owns.faults _ (Owns.fresh g)
  rintro r h ⟨rfl, ho⟩
  have hsome : granted g 0 = some 0 := by simp [granted, hg]
  simp only [hsome]
  apply fmCoreInitShare_spec.faults _ ho
  rintro core h ⟨hinit, ho⟩
  by_cases hg1 : g 1 = true
  · have hchunks : ¬ core.chunks.isNone = true := by
      simpa using hinit.chunks_ne_none hg1
    rw [if_neg hchunks]
    apply alloc_owns.faults _ ho
    rintro r h ⟨rfl, ho⟩
    have hnone : granted g (0 + 1 + initRequests g (0 + 1) n) = none := by
      have hname : ¬ g (nameRequest g n) = true := by tauto
      simpa [granted, nameRequest] using hname
    simp only [hnone]
    exact createErr_faults
      (hinit.faults hn (Or.inr (by simpa [hg1] using fun h2 => hbad ⟨hg1, Or.inl h2⟩))) h
  · have hchunks : core.chunks.isNone = true := by
      rw [hinit.chunks_eq_none (by simpa using hg1)]
      rfl
    rw [if_pos hchunks]
    exact createErr_faults (hinit.faults hn (Or.inl (by simpa using hg1))) h

/-- What every later `fm_core_free_share` rests on. -/
structure CoreArrays.Whole (s : CoreArrays) : Prop where
  chunks : s.chunks ≠ none
  keydef : s.keys ≠ 0 → s.keydef ≠ none

/-- A share with all its arrays can be freed. -/
theorem CoreArrays.Whole.freeable (h : s.Whole) : s.Freeable := ⟨fun _ => h.chunks, h.keydef⟩

/-- Storing a chunk keeps the share whole. -/
theorem CoreArrays.Whole.setChunk (h : s.Whole) (chunks : Block ChunkArrays) (c : ChunkArrays) :
    (s.setChunk chunks c).Whole := ⟨by simp [CoreArrays.setChunk], h.keydef⟩

theorem CoreArrays.Whole.withCnt (h : s.Whole) (cnt : Nat) : CoreArrays.Whole
    { s with chunkCnt := cnt } :=
  ⟨h.chunks, h.keydef⟩

/-- Growing a key does not fault. -/
theorem safe_growKey (slots kk : Nat) (r : Block (Option Nat) × Bool) :
    Safe (growKey slots kk r) := by
  obtain ⟨keyNext, flag⟩ := r
  cases flag with
  | false => exact Safe.pure _
  | true =>
    apply safe_alloc.bind
    intro r
    cases r with
    | some b => exact Safe.pure _
    | none =>
      have hcells : Safe (rounds (fun j _ => deallocIf (keyNext.cells j)) kk ()) :=
        Safe.rounds fun k _ _ => safe_deallocIf _
      exact hcells.bind fun _ => (safe_dealloc _).bind fun _ => (safe_dealloc _).bind
        fun _ => Safe.pure _

/-- `fm_core_grow_chunk` leaves the arrays of a whole core present. -/
theorem fmCoreGrowChunk_whole (hs : s.Whole) :
    Does (fun _ => True) (fmCoreGrowChunk s) (fun r _ => r.2.Whole) := by
  obtain ⟨chunks, hchunks⟩ := Option.ne_none_iff_exists'.mp hs.chunks
  rw [fmCoreGrowChunk]
  split
  case isTrue => exact Does.pure fun _ _ => hs
  case isFalse =>
    simp only [hchunks, deref_some, pure_bind]
    apply Does.bind safe_alloc
    intro r
    cases r with
    | none => exact Does.pure fun _ _ => hs.setChunk _ _
    | some slots =>
      simp only
      split
      case isTrue => exact Does.pure fun _ _ => (hs.setChunk _ _).withCnt _
      case isFalse =>
        apply Does.bind safe_alloc
        intro r
        cases r with
        | none =>
          apply Does.bind (safe_dealloc slots)
          exact fun _ => Does.pure fun _ _ => hs.setChunk _ _
        | some keyNext =>
          have hloop : Safe (rounds (growKey slots) s.keys (⟨keyNext, fun _ => none⟩, true)) :=
            Safe.rounds fun k _ r => safe_growKey slots k r
          apply Does.bind hloop
          intro r
          obtain ⟨keyNext, grown⟩ := r
          cases grown with
          | true => exact Does.pure fun _ _ => (hs.setChunk _ _).withCnt _
          | false => exact Does.pure fun _ _ => hs.setChunk _ _

/-- The cores that calls of `fm_core_grow_chunk` make of `s`, whatever the allocator
answers and whatever is allocated and released in between. -/
inductive Grown (s : CoreArrays) : CoreArrays → Prop
  | refl : Grown s s
  | grow {s' s'' : CoreArrays} {rc : Rc} {h h' : Heap} (hs : Grown s s')
      (hrun : fmCoreGrowChunk s' h = some ((rc, s''), h')) : Grown s s''

/-- A share that has grown is still whole. -/
theorem Grown.whole {s' : CoreArrays} (h : Grown s s') (hs : s.Whole) : s'.Whole := by
  induction h with
  | refl => exact hs
  | grow _ hrun ih =>
    obtain ⟨r, h₁, hrun', hwhole⟩ := fmCoreGrowChunk_whole ih _ trivial
    rw [hrun] at hrun'
    obtain ⟨rfl, rfl⟩ := hrun'
    exact hwhole

/-- The allocations of `fm_create` for a table with keys. -/
inductive Request
  | share | chunks | keyArray | head (k : Nat) | locks (k : Nat) | name

/-- Which call of the allocator that is for a table with `n` keys, if no refusal has cut
`fm_core_init_share` short. -/
def Request.number (n : Nat) : Request → Nat
  | .share => 0
  | .chunks => 1
  | .keyArray => 2
  | .head k => 3 + 2 * k
  | .locks k => 3 + 2 * k + 1
  | .name => 3 + 2 * n

/-- The chunk array, the entry of every key and its arrays are present. -/
structure CoreArrays.Complete (s : CoreArrays) : Prop where
  chunks : s.chunks ≠ none
  arrays : ∀ k < s.keys, ∃ keydef, s.keydef = some keydef ∧ (keydef.cells k).head ≠ none ∧
    (keydef.cells k).locks ≠ none

/-- A complete share is whole. -/
theorem CoreArrays.Complete.whole (h : s.Complete) : s.Whole := by
  refine ⟨h.chunks, fun hkeys => ?_⟩
  obtain ⟨keydef, hkeydef, -⟩ := h.arrays 0 (by omega)
  simp [hkeydef]

/-- Refused allocations are handled: `fm_create` faults at no absent array, and it returns
a share that has all its arrays and keeps `fm_core_free_share` from faulting for as long as
it lives, or it fails and has released each block that it allocated exactly once. -/
def RefusalsHandled (g : Nat → Bool) (n maxRecords : Nat) : Prop :=
  ∃ r h, fmCreate n maxRecords (Heap.fresh g) = some (r, h) ∧
    match r with
    | some share => share.core.keys = n ∧ share.core.Complete ∧
        ∀ s, Grown share.core s → ∀ h, fmCoreFreeShare s h ≠ none
    | none => (∀ b ∈ h.allocated, h.released.count b = 1) ∧ ∀ b ∈ h.released, b ∈ h.allocated

/-- The refusals that the creation of a share with `n` keys is prepared for: that of the
share itself, any if there are no keys, and otherwise that of the name or none but, with
it, those of the arrays of single keys. -/
def Prepared (g : Nat → Bool) (n : Nat) : Prop :=
  g (Request.number n .share) = true → n ≠ 0 →
    g (Request.number n .chunks) = true ∧ g (Request.number n .keyArray) = true ∧
      (g (Request.number n .name) = true →
        ∀ k < n, g (Request.number n (.head k)) = true ∧ g (Request.number n (.locks k)) = true)

/-- The number of the request for the name of the table. -/
theorem nameRequest_eq (hn : n ≠ 0) (h1 : g 1 = true) (h2 : g 2 = true) :
    nameRequest g n = Request.number n .name := by
  simp [nameRequest, initRequests, Request.number, hn, h1, h2]
  omega

/-- A granted request returns a block. -/
theorem granted_ne_none : granted g m ≠ none ↔ g m = true := by
  simp [granted]

/-- If the requests of the arrays are granted, none is missing. -/
theorem Prepared.noNullArray (h : Prepared g n) : NoNullArray g n :=
  fun hg hn => ⟨(h hg hn).1, Or.inl (h hg hn).2.1⟩

/-- Which arrays a new core has. -/
theorem Initialised.complete_iff (h : Initialised g 1 n s) (hg : g 1 = true) :
    s.Complete ↔ (n ≠ 0 → g 2 = true ∧
      ∀ k < n, g (Request.number n (.head k)) = true ∧ g (Request.number n (.locks k)) = true) := by
  constructor
  · intro hs hn
    have hg2 : g 2 = true := by
      by_contra hg2
      have hnone : s.keydef = none := h.keydef_eq_none (Or.inr (Or.inr (by simpa using hg2)))
      obtain ⟨keydef, hkeydef, -⟩ := hs.arrays 0 (by rw [h.keys]; omega)
      rw [hnone] at hkeydef
      cases hkeydef
    refine ⟨hg2, fun k hk => ?_⟩
    obtain ⟨keydef, hkeydef, hhead, hlocks⟩ := hs.arrays k (by rw [h.keys]; exact hk)
    rw [h.arrays keydef hkeydef k hk] at hhead hlocks
    exact ⟨granted_ne_none.mp hhead, granted_ne_none.mp hlocks⟩
  · intro hs
    refine ⟨h.chunks_ne_none hg, fun k hk => ?_⟩
    rw [h.keys] at hk
    have hn : n ≠ 0 := by omega
    obtain ⟨keydef, hkeydef⟩ := Option.ne_none_iff_exists'.mp (h.keydef_ne_none hg hn (hs hn).1)
    refine ⟨keydef, hkeydef, ?_⟩
    rw [h.arrays keydef hkeydef k hk]
    obtain ⟨hhead, hlocks⟩ := (hs hn).2 k hk
    exact ⟨granted_ne_none.mpr hhead, granted_ne_none.mpr hlocks⟩

/-- The creation of a share handles exactly the refusals that it is prepared for. -/
theorem refusals_handled (g : Nat → Bool) (n maxRecords : Nat) :
    RefusalsHandled g n maxRecords ↔ Prepared g n := by
  by_cases hok : NoNullArray g n
  · have houtcome : Does (Owns g 0 []) (fmCreate n maxRecords) (CreateOutcome g n) :=
      fmCreate_outcome hok
    obtain ⟨r, h, hrun, hout⟩ := houtcome _ (Owns.fresh g)
    cases r with
    | none =>
      obtain ⟨hrefused, m, ho⟩ := hout
      have hhandled : RefusalsHandled g n maxRecords := ⟨none, h, hrun, ho.released_once⟩
      refine ⟨fun _ hg hn => ?_, fun _ => hhandled⟩
      obtain ⟨hg1, hor⟩ := hok hg hn
      have hname : g (nameRequest g n) = false := by
        obtain hg' | hg' | hg' := hrefused
        · exact absurd hg (by simp [Request.number, hg'])
        · exact absurd hg1 (by simp [hg'])
        · exact hg'
      have hg2 : g 2 = true := by
        obtain hg2 | hname' := hor
        · exact hg2
        · rw [hname] at hname'
          cases hname'
      rw [nameRequest_eq hn hg1 hg2] at hname
      exact ⟨hg1, hg2, fun hname' => absurd hname' (by simp [hname])⟩
    | some share =>
      obtain ⟨hinit, hg0, hg1, hname⟩ := hout
      constructor
      · rintro ⟨r, h', hrun', hr⟩ hg hn
        rw [hrun] at hrun'
        obtain ⟨rfl, rfl⟩ := hrun'
        obtain ⟨hg2, harrays⟩ := (hinit.complete_iff hg1).mp hr.2.1 hn
        exact ⟨hg1, hg2, fun _ => harrays⟩
      · intro hprep
        have hcomplete : share.core.Complete := by
          apply (hinit.complete_iff hg1).mpr
          intro hn
          obtain ⟨-, hg2, harrays⟩ := hprep hg0 hn
          rw [nameRequest_eq hn hg1 hg2] at hname
          exact ⟨hg2, harrays hname⟩
        refine ⟨some share, h, hrun, hinit.keys, hcomplete, fun s hs h => ?_⟩
        have hsafe : Safe (fmCoreFreeShare s) :=
          safe_fmCoreFreeShare (hs.whole hcomplete.whole).freeable
        obtain ⟨_, _, hfree, -⟩ := hsafe h trivial
        simp [hfree]
  · constructor
    · rintro ⟨r, h, hrun, -⟩
      rw [fmCreate_faults hok] at hrun
      cases hrun
    · exact fun hprep => absurd hprep.noNullArray hok

/-- The answers of an allocator that refuses the key array of a table with one key. -/
def keyArrayRefused (m : Nat) : Bool := m != Request.number 1 .keyArray

/-- `fm_create` returns a share without a key array, and freeing it follows the null pointer. -/
theorem key_array_refused_unnoticed : ¬ RefusalsHandled keyArrayRefused 1 5000 := by
  rintro ⟨r, h, hrun, hr⟩
  have hdone : (fmCreate 1 5000 (Heap.fresh keyArrayRefused)).any
      (fun r => r.1.any fun share => share.core.keys == 1 && share.core.keydef.isNone) = true := by
    decide +kernel
  simp only [hrun, Option.any_some] at hdone
  obtain ⟨share, rfl, hshare⟩ := (Option.any_eq_true _ _).mp hdone
  simp only [Bool.and_eq_true, beq_iff_eq, Option.isNone_iff_eq_none] at hshare
  obtain ⟨keydef, hkeydef, -⟩ := hr.2.1.arrays 0 (by omega)
  rw [hshare.2] at hkeydef
  cases hkeydef

end FastMem.Creation
