import FastMem.CoreDeadlock
import FastMem.Lookup
import FastMem.Sections
import FastMem.SeqEffects

/-!
# Racing moves of one row

Several updates move one row between buckets, and all of them were given the same old image.
Each unlinks the row from the bucket of that image, where only the first is sure to find it, and
links it in front of its new bucket.  A chain in which a move has left the row behind goes on,
from the row, as the row's new chain does: what came after the row there is lost, and if the row
is put in front of such a chain the chain has become a circle.

That is all that can go wrong.  If the row comes last wherever it is left behind, and is not
put there again, every row is still found.
-/

namespace FastMem

open Conc

variable {n : Nat} {W PK : Type} {cfg : ShareCfg n W PK} {t : Nat} {s : Share n W} {C : Index}

section

variable {nb old new : Nat} {i : Int} {D L : Nat → List Int}

/-- The chains `L` of one key of `nb` buckets, when `D` are the chains of the other slots: slot
`i` is in one of them, and may have been left behind at the end of others, which go on after it
as that one does; not in the chain of bucket `old`, from which it is always unlinked. -/
def Stray (nb old : Nat) (i : Int) (D L : Nat → List Int) : Prop :=
  ∃ home pre post, home < nb ∧ D home = pre ++ post ∧ L home = pre ++ i :: post ∧
    ∀ b, b ≠ home → L b = D b ∨ b ≠ old ∧ b < nb ∧ L b = D b ++ i :: post

/-- No slot is in two of the chains `D`, and `i` is in none. -/
structure KeptApart (i : Int) (D : Nat → List Int) : Prop where
  disjoint : ∀ b b' j, j ∈ D b → j ∈ D b' → b = b'
  out : ∀ b, i ∉ D b

/-- A chain slot `i` has been left in is not the one it is put in, and ends with it but for
slots of other chains. -/
def Movable (nb old new : Nat) (i : Int) (D L : Nat → List Int) : Prop :=
  ∀ b, b < nb → b ≠ old → i ∈ L b → b ≠ new ∧ ∀ j ∈ behind i (L b), j ∉ D b

/-- The chains once slot `i` has been unlinked from `old` and linked into `new`. -/
def movedChains (old new : Nat) (i : Int) (D L : Nat → List Int) (b : Nat) : List Int :=
  if b = new then i :: D b else if b = old ∨ i ∉ L b then D b else D b ++ i :: D new

/-- The other slots are where they were. -/
theorem Stray.mem (h : Stray nb old i D L) {b : Nat} {j : Int} (hj : j ∈ D b) : j ∈ L b := by
  obtain ⟨home, pre, post, -, hD, hL, hother⟩ := h
  by_cases hb : b = home
  · subst hb
    rw [hD] at hj
    rw [hL]
    simp only [List.mem_append, List.mem_cons] at hj ⊢
    exact hj.imp_right Or.inr
  · obtain heq | ⟨-, -, heq⟩ := hother b hb
    · rwa [heq]
    · rw [heq]
      exact List.mem_append_left _ hj

/-- A chain without the slot is that of the other slots. -/
theorem Stray.eq_of_notMem (h : Stray nb old i D L) {b : Nat} (hb : i ∉ L b) : L b = D b := by
  obtain ⟨home, pre, post, -, -, hL, hother⟩ := h
  have hne : b ≠ home := by
    rintro rfl
    exact hb (by rw [hL]; simp)
  obtain heq | ⟨-, -, heq⟩ := hother b hne
  · exact heq
  · exact absurd (by rw [heq]; simp) hb

/-- The slot is in chains of the key's buckets only. -/
theorem Stray.lt (h : Stray nb old i D L) (hapart : KeptApart i D) {b : Nat} (hb : i ∈ L b) :
    b < nb := by
  obtain ⟨home, pre, post, hhome, -, -, hother⟩ := h
  by_cases hbh : b = home
  · rwa [hbh]
  · obtain heq | ⟨-, hlt, -⟩ := hother b hbh
    · rw [heq] at hb
      exact absurd hb (hapart.out b)
    · exact hlt

/-- The slot strays no farther when it is moved. -/
theorem Stray.moved (h : Stray nb old i D L) (hapart : KeptApart i D) (hnew : new < nb) :
    Stray nb old i D (movedChains old new i D L) := by
  refine ⟨new, [], D new, hnew, rfl, if_pos rfl, fun b hb => ?_⟩
  unfold movedChains
  rw [if_neg hb]
  by_cases hgone : b = old ∨ i ∉ L b
  · exact Or.inl (if_pos hgone)
  · rw [if_neg hgone]
    rw [not_or, not_not] at hgone
    exact Or.inr ⟨hgone.1, h.lt hapart hgone.2, rfl⟩

/-- Where a movable slot has been left it comes after all slots of the chain. -/
theorem Stray.left_behind (h : Stray nb old i D L) (hapart : KeptApart i D)
    (hmove : Movable nb old new i D L) {b : Nat} (hb : b ≠ old) (hi : i ∈ L b) :
    ∃ post, L b = D b ++ i :: post := by
  have hlast := (hmove b (h.lt hapart hi) hb hi).2
  obtain ⟨home, pre, post, -, hD, hL, hother⟩ := h
  by_cases hbh : b = home
  · subst hbh
    have hpre : i ∉ pre := fun hmem => hapart.out b (by rw [hD]; exact List.mem_append_left _ hmem)
    rw [hL, behind_append hpre] at hlast
    have hpost : post = [] := List.eq_nil_iff_forall_not_mem.mpr fun j hj =>
      hlast j hj (by rw [hD]; exact List.mem_append_right _ hj)
    rw [hpost, List.append_nil] at hD
    exact ⟨[], by rw [hL, hD, hpost]⟩
  · obtain heq | ⟨-, -, heq⟩ := hother b hbh
    · rw [heq] at hi
      exact absurd hi (hapart.out b)
    · exact ⟨post, heq⟩

/-- After the unlink the chain of bucket `old` is that of the other slots. -/
theorem runs_unlinkStray (cfg : ShareCfg n W PK) (t : Nat) (hC : s.Indexed C) {k : Nat}
    (hapart : KeptApart i D) (h : Stray nb old i D (C k)) :
    ∃ rc nx hd, (machine cfg).Runs t (chainUnlink k old i) s rc (s.withIndex nx hd) ∧
      (s.withIndex nx hd).Indexed (C.set k old (D old)) := by
  by_cases hmem : i ∈ C k old
  · obtain ⟨home, pre, post, -, hD, hL, hother⟩ := h
    have hhome : old = home := by
      by_contra hne
      obtain heq | ⟨hold, -⟩ := hother old hne
      · rw [heq] at hmem
        exact hapart.out old hmem
      · exact hold rfl
    subst hhome
    have hchain := hC k old
    rw [hL] at hchain
    have hdisj := (List.nodup_append.mp hchain.nodup).2.2
    -- nothing in front of the slot is in another chain, not even behind the slot
    have hpre : ∀ b, b ≠ old → ∀ p ∈ pre, p ∉ C k b := by
      intro b hb p hp hpb
      have hpD : p ∈ D old := by rw [hD]; exact List.mem_append_left _ hp
      have hpb' : p ∉ D b := fun hmem' => hb (hapart.disjoint b old p hmem' hpD)
      obtain heq | ⟨-, -, heq⟩ := hother b hb
      · rw [heq] at hpb
        exact hpb' hpb
      · rw [heq] at hpb
        exact (List.mem_append.mp hpb).elim hpb' fun hpost => hdisj p hp p hpost rfl
    have hruns := runs_chainUnlink_of_mem cfg t hchain
    have hcut := indexed_cut hC hpre hL
    rw [← hD] at hcut
    refine ⟨.ok, (s.setLink k (s.next k i) (linkAfter old pre)).next,
      (s.setLink k (s.next k i) (linkAfter old pre)).head, ?_, ?_⟩
    · cases hlink : linkAfter old pre <;> rw [hlink] at hruns <;> exact hruns
    · cases hlink : linkAfter old pre <;> rw [hlink] at hcut <;> exact hcut
  · refine ⟨.notFound, s.next, s.head, runs_chainUnlink_of_notMem cfg t (hC k old) hmem, ?_⟩
    rw [← h.eq_of_notMem hmem, Index.set_get]
    exact hC

/-- One move of the slot, under one key. -/
theorem runs_moveStray (cfg : ShareCfg n W PK) (t : Nat) (hC : s.Indexed C) {k : Nat}
    (hapart : KeptApart i D) (h : Stray nb old i D (C k)) (hmove : Movable nb old new i D (C k))
    (hnew : new < nb) (hne : i ≠ nullSlot) :
    ∃ rc nx hd nx' hd', (machine cfg).Runs t (chainUnlink k old i) s rc (s.withIndex nx hd) ∧
      (machine cfg).Runs t (chainLink k new i) (s.withIndex nx hd) () (s.withIndex nx' hd') ∧
      (s.withIndex nx' hd').Indexed (Function.update C k (movedChains old new i D (C k))) := by
  obtain ⟨rc, nx, hd, hunlink, hC₁⟩ := runs_unlinkStray cfg t hC hapart h
  have hout : new ≠ old → i ∉ C k new := fun hno hmem => (hmove new hnew hno hmem).1 rfl
  have hchain : C.set k old (D old) k new = D new := by
    by_cases hno : new = old
    · rw [hno, Index.set_self]
    · rw [Index.set_of_ne _ _ fun hk => hno hk.2]
      exact h.eq_of_notMem (hout hno)
  have hlink : (s.withIndex nx hd).withIndex
      (Function.update nx k (Function.update (nx k) i (hd k new)))
      (Function.update hd k (Function.update (hd k) new i)) |>.Indexed
        (Function.update C k (movedChains old new i D (C k))) := by
    refine indexed_relink hC₁ (by rw [hchain]; exact hapart.out new) hne ?_ (fun b hb => ?_)
      fun k' hk => ?_
    · rw [hchain, Function.update_self]
      exact if_pos rfl
    · rw [Function.update_self]
      unfold movedChains
      rw [if_neg hb, hchain]
      by_cases hbo : b = old
      · subst hbo
        rw [Index.set_self, if_pos (Or.inl rfl)]
        exact Or.inl ⟨hapart.out b, rfl⟩
      · rw [Index.set_of_ne _ _ fun hk => hbo hk.2]
        by_cases hi : i ∈ C k b
        · obtain ⟨post, hpost⟩ := h.left_behind hapart hmove hbo hi
          rw [if_neg (not_or.mpr ⟨hbo, not_not.mpr hi⟩)]
          exact Or.inr ⟨D b, post, hpost, rfl⟩
        · rw [if_pos (Or.inr hi)]
          exact Or.inl ⟨hi, (h.eq_of_notMem hi).symm⟩
    · rw [Function.update_of_ne hk]
      funext b
      exact (Index.set_of_ne _ _ fun hkb => hk hkb.1).symm
  exact ⟨rc, nx, hd, _, _, hunlink, runs_chainLink k new i, hlink⟩

end

section

variable {idx : Int} {old new : Image n W} {D : Index}

/-- The chain moves of an update whose row may be moved under every key it changes. -/
theorem runs_moveKeys_stray (cfg : ShareCfg n W PK) (t : Nat) {ks : List Nat} (hnd : ks.Nodup)
    (hC : s.Indexed C) (hne : idx ≠ nullSlot) (hapart : ∀ k ∈ ks, KeptApart idx (D k))
    (hstray : ∀ k ∈ ks, Stray (cfg.keydef k).nbuckets (cfg.keyBucket k old) idx (D k) (C k))
    (hmove : ∀ k ∈ ks, Movable (cfg.keydef k).nbuckets (cfg.keyBucket k old) (cfg.keyBucket k new)
      idx (D k) (C k)) :
    ∃ nx hd, (machine cfg).Runs t (moveKeys cfg idx old new ks) s () (s.withIndex nx hd) ∧
      (s.withIndex nx hd).Indexed fun k => if k ∈ ks then
        movedChains (cfg.keyBucket k old) (cfg.keyBucket k new) idx (D k) (C k) else C k := by
  induction ks generalizing s C with
  | nil =>
      refine ⟨s.next, s.head, runs_pure, ?_⟩
      simp only [List.not_mem_nil, if_false]
      exact hC
  | cons k ks ih =>
      obtain ⟨hk, hnd⟩ := List.nodup_cons.mp hnd
      obtain ⟨rc, nx, hd, nx', hd', hunlink, hlink, hC'⟩ := runs_moveStray cfg t hC
        (hapart k List.mem_cons_self) (hstray k List.mem_cons_self) (hmove k List.mem_cons_self)
        (cfg.keyBucket_lt k new) hne
      have hkept : ∀ k' ∈ ks, Function.update C k (movedChains (cfg.keyBucket k old)
          (cfg.keyBucket k new) idx (D k) (C k)) k' = C k' := by
        intro k' hk'
        exact Function.update_of_ne (fun heq => hk (by rwa [heq] at hk')) _ _
      obtain ⟨nx'', hd'', hruns, hindex⟩ := ih hnd hC'
        (fun k' hk' => hapart k' (List.mem_cons_of_mem k hk'))
        (fun k' hk' => by rw [hkept k' hk']; exact hstray k' (List.mem_cons_of_mem k hk'))
        (fun k' hk' => by rw [hkept k' hk']; exact hmove k' (List.mem_cons_of_mem k hk'))
      refine ⟨nx'', hd'', runs_then hunlink (runs_then hlink hruns), ?_⟩
      have heq : (fun k' => if k' ∈ k :: ks then movedChains (cfg.keyBucket k' old)
          (cfg.keyBucket k' new) idx (D k') (C k') else C k') = fun k' => if k' ∈ ks then
            movedChains (cfg.keyBucket k' old) (cfg.keyBucket k' new) idx (D k')
              (Function.update C k (movedChains (cfg.keyBucket k old) (cfg.keyBucket k new) idx
                (D k) (C k)) k') else Function.update C k (movedChains (cfg.keyBucket k old)
                  (cfg.keyBucket k new) idx (D k) (C k)) k' := by
        funext k'
        by_cases hk' : k' ∈ ks
        · rw [if_pos (List.mem_cons_of_mem k hk'), if_pos hk', hkept k' hk']
        · rw [if_neg hk']
          by_cases hkk : k' = k
          · subst hkk
            rw [if_pos List.mem_cons_self, Function.update_self]
          · rw [if_neg (by simp [hkk, hk']), Function.update_of_ne hkk]
      rw [heq]
      exact hindex

/-- An update of row `idx` from `old` to `new` that begins now does no harm.  A chain the row
has been left in, under a key that changes, is not the one the row is put in, and no row of that
chain comes after it there; under a key that does not change, the row is in the chain of its new
image. -/
def MovesSafely (cfg : ShareCfg n W PK) (s : Share n W) (idx : Int) (old new : Image n W) : Prop :=
  ∀ C, s.Indexed C → ∀ k, k < cfg.keys →
    if k ∈ changedKeys cfg old new then
      ∀ b, b < (cfg.keydef k).nbuckets → b ≠ cfg.keyBucket k old → idx ∈ C k b →
        b ≠ cfg.keyBucket k new ∧
          ∀ i ∈ behind idx (C k b), s.state i = .active → cfg.keyBucket k (s.data i) ≠ b
    else idx ∈ C k (cfg.keyBucket k new)

/-- The chains `D` hold the other rows of share `s`, each in the bucket of its image. -/
def OtherRows (cfg : ShareCfg n W PK) (s : Share n W) (idx : Int) (D : Index) : Prop :=
  ∀ k, k < cfg.keys → ∀ b i, i ∈ D k b ↔ i ≠ idx ∧ s.state i = .active ∧
    cfg.keyBucket k (s.data i) = b

/-- Row `idx` of share `s₀` has been moved, always from the chains of `old`, and every other row
is as it was. -/
structure Wanders (cfg : ShareCfg n W PK) (s₀ : Share n W) (idx : Int) (old : Image n W)
    (D : Index) (s : Share n W) : Prop where
  chains : ∃ C, s.Indexed C ∧ ∀ k, k < cfg.keys →
    Stray (cfg.keydef k).nbuckets (cfg.keyBucket k old) idx (D k) (C k) ∧
      idx ∈ C k (cfg.keyBucket k (s.data idx))
  state : s.state = s₀.state
  data : ∀ i, i ≠ idx → s.data i = s₀.data i
  even : ∀ i, s.seq i % 2 = 0

variable {s₀ : Share n W}

/-- The other rows are apart. -/
theorem OtherRows.apart (h : OtherRows cfg s₀ idx D) {k : Nat} (hk : k < cfg.keys) :
    KeptApart idx (D k) := by
  constructor
  · intro b b' i hi hi'
    exact ((h k hk b i).mp hi).2.2.symm.trans ((h k hk b' i).mp hi').2.2
  · exact fun b hi => ((h k hk b idx).mp hi).1 rfl

/-- A row that has been moved without harm is not lost, and neither is any other. -/
theorem Wanders.found (h : Wanders cfg s₀ idx old D s) (hothers : OtherRows cfg s₀ idx D) :
    ∃ C, s.Indexed C ∧ ∀ k, k < cfg.keys → ∀ i, s.state i = .active →
      i ∈ C k (cfg.keyBucket k (s.data i)) := by
  obtain ⟨C, hC, hrow⟩ := h.chains
  refine ⟨C, hC, fun k hk i hi => ?_⟩
  obtain ⟨hstray, hself⟩ := hrow k hk
  by_cases hidx : i = idx
  · rwa [hidx]
  · rw [h.state] at hi
    exact hstray.mem ((hothers k hk _ i).mpr ⟨hidx, hi, by rw [h.data i hidx]⟩)

/-- A safe move of a row that has wandered. -/
theorem Wanders.movable (h : Wanders cfg s₀ idx old D s) (hothers : OtherRows cfg s₀ idx D)
    (hsafe : MovesSafely cfg s idx old new) (hC : s.Indexed C) {k : Nat} (hk : k < cfg.keys)
    (hch : k ∈ changedKeys cfg old new) :
    Movable (cfg.keydef k).nbuckets (cfg.keyBucket k old) (cfg.keyBucket k new) idx (D k)
      (C k) := by
  have hsafe := hsafe C hC k hk
  rw [if_pos hch] at hsafe
  intro b hb hold hi
  obtain ⟨hnew, hlast⟩ := hsafe b hb hold hi
  refine ⟨hnew, fun j hj hjD => ?_⟩
  obtain ⟨hne, hactive, hbucket⟩ := (hothers k hk b j).mp hjD
  rw [← h.state] at hactive
  exact hlast j hj hactive (by rw [h.data j hne, hbucket])

/-- The commit of an update that moves its row without harm. -/
theorem Wanders.commit (h : Wanders cfg s₀ idx old D s) (hothers : OtherRows cfg s₀ idx D)
    (hkeys : cfg.keys ≤ 64) (hsafe : MovesSafely cfg s idx old new) (t : Nat) :
    ∃ nx hd, (machine cfg).Runs t (moveKeys cfg idx old new (changedKeys cfg old new))
        (s.rewritten idx new s.next s.head) () (s.rewritten idx new nx hd) ∧
      Wanders cfg s₀ idx old D (s.rewritten idx new nx hd) := by
  obtain ⟨C, hC, hrow⟩ := h.chains
  have hlt : ∀ k ∈ changedKeys cfg old new, k < cfg.keys := fun k hk =>
    ((mem_changedKeys hkeys).mp hk).1
  have hindexed : (s.rewritten idx new s.next s.head).Indexed C := hC
  have hmoves : ∃ nx hd, (machine cfg).Runs t (moveKeys cfg idx old new (changedKeys cfg old new))
      (s.rewritten idx new s.next s.head) () (s.rewritten idx new nx hd) ∧
      (s.rewritten idx new nx hd).Indexed fun k => if k ∈ changedKeys cfg old new then
        movedChains (cfg.keyBucket k old) (cfg.keyBucket k new) idx (D k) (C k) else C k := by
    by_cases hch : changedKeys cfg old new = []
    · rw [hch]
      exact ⟨s.next, s.head, runs_pure, by simpa using hindexed⟩
    · obtain ⟨k, hk⟩ := List.exists_mem_of_ne_nil _ hch
      have hne : idx ≠ nullSlot := (hC k _).ne_nil (hrow k (hlt k hk)).2
      exact runs_moveKeys_stray cfg t (changedKeys_nodup hkeys) hindexed hne
        (fun k hk => hothers.apart (hlt k hk)) (fun k hk => (hrow k (hlt k hk)).1)
        fun k hk => h.movable hothers hsafe hC (hlt k hk) hk
  obtain ⟨nx, hd, hruns, hindex⟩ := hmoves
  refine ⟨nx, hd, hruns, ⟨_, hindex, fun k hk => ?_⟩, h.state, fun i hi => ?_, fun i => ?_⟩
  · have hdata : (s.rewritten idx new nx hd).data idx = new := Function.update_self ..
    rw [hdata]
    by_cases hch : k ∈ changedKeys cfg old new
    · rw [if_pos hch]
      refine ⟨(hrow k hk).1.moved (hothers.apart hk) (cfg.keyBucket_lt k new), ?_⟩
      unfold movedChains
      rw [if_pos rfl]
      exact List.mem_cons_self
    · rw [if_neg hch]
      have hsafe := hsafe C hC k hk
      rw [if_neg hch] at hsafe
      exact ⟨(hrow k hk).1, hsafe⟩
  · exact (Function.update_of_ne hi _ _).trans (h.data i hi)
  · have heven := h.even i
    by_cases hi : i = idx
    · subst hi
      simp only [Share.rewritten, Function.update_self]
      omega
    · simpa [Share.rewritten, hi] using heven

end

/-- The share with every lock free. -/
def Share.unlocked (s : Share n W) : Share n W :=
  { s with mutex := none, bucketLock := fun _ _ => none, wlock := fun _ => none }

/-- A lock operation does not show in it. -/
@[simp] theorem unlocked_setOwner (o : Option Nat) (l : Lock) :
    (s.setOwner o l).unlocked = s.unlocked := by
  cases l <;> rfl

/-- What is done without lock operations does not depend on who holds which lock. -/
theorem exec_unlocked {a : Act n W} (ha : a.quiet = true) {s' : Share n W} {r : a.Res}
    (h : exec cfg t a s = some (r, s')) : exec cfg t a s.unlocked = some (r, s'.unlocked) := by
  cases a <;> simp only [Act.quiet, Bool.false_eq_true] at ha <;> simp only [exec] at h
  case casAutoInc cur new =>
    split at h <;> rename_i hcas <;> cases h <;> simp [exec, Share.unlocked, hcas]
  all_goals
    cases h
    rfl

/-- A load, or an operation on another lock than that of row `idx`. -/
def Act.aside (idx : Int) : Act n W → Bool
  | .lock l | .unlock l => l ≠ .row idx
  | a => a.loads

/-- It changes neither the lock of the row nor anything that is not a lock. -/
theorem exec_aside {idx : Int} {a : Act n W} (ha : a.aside idx = true) {s' : Share n W} {r : a.Res}
    (h : exec cfg t a s = some (r, s')) :
    s'.owner (.row idx) = s.owner (.row idx) ∧ s'.unlocked = s.unlocked := by
  cases a with
  | lock l =>
      have hl : Lock.row idx ≠ l := by
        rintro rfl
        simp [Act.aside] at ha
      simp only [exec] at h
      split at h
      · cases h
        simp [hl]
      · cases h
  | unlock l =>
      have hl : Lock.row idx ≠ l := by
        rintro rfl
        simp [Act.aside] at ha
      cases h
      simp [hl]
  | _ => cases ha <;> cases h <;> exact ⟨rfl, rfl⟩

/-- Rows and chains are worked on under the lock of row `idx`. -/
def rowSections (cfg : ShareCfg n W PK) (idx : Int) : Sections (machine cfg) where
  view := Share.unlocked
  holder := fun s => s.owner (.row idx)
  enter := .lock (.row idx)
  leave := .unlock (.row idx)
  work := fun a => Act.quiet a = true
  quiet := fun a => Act.aside idx a = true
  exec_enter := by
    intro t s r s' h
    simp only [exec] at h
    split at h
    · rename_i hfree
      cases h
      exact ⟨hfree, by simp, by simp⟩
    · cases h
  exec_leave := by
    intro t s r s' h
    cases h
    exact ⟨by simp, by simp⟩
  exec_work := fun ha h => ⟨by rw [exec_owner ha h], exec_unlocked ha h⟩
  exec_quiet := fun ha h => exec_aside ha h

section

variable (idx : Int)

/-- A program of loads and operations on other locks. -/
abbrev Aside {α : Type} (p : Core n W PK α) : Prop :=
  Machine.Only (S := coreSig n W PK) (fun a => Act.aside idx a = true)
    (fun q => Proc.reads q = true) p

/-- What only loads is aside. -/
theorem Loads.aside {α : Type} {p : Core n W PK α} (hp : Loads p) : Aside idx p := by
  refine Machine.Only.mono (fun a ha => ?_) (fun _ h => h) hp
  cases a <;> first | exact ha | cases ha

/-- Taking the lock set is aside. -/
theorem aside_lockAll (prev : Option (Nat × Nat)) (vs : List (Nat × Nat)) :
    Aside idx (lockAll prev vs : Core n W PK Unit) := by
  induction vs generalizing prev with
  | nil => exact only_pure _
  | cons v vs ih => exact only_bind (.ite (only_pure _) (only_access rfl)) fun _ => ih _

/-- Giving it back is too. -/
theorem aside_unlockAll (vs : List (Nat × Nat)) :
    Aside idx (unlockAll vs : Core n W PK Unit) := by
  induction vs with
  | nil => exact only_pure _
  | cons v vs ih => exact only_bind (.ite (only_pure _) (only_access rfl)) fun _ => ih

/-- The check of state and generation only loads. -/
theorem loads_verifySlot (g : Nat) : Loads (verifySlot idx g : Core n W PK Bool) :=
  only_bind (only_access rfl) fun _ =>
    .ite (only_pure _) (only_bind (only_access rfl) fun _ => only_pure _)

end

/-- Every update that begins to rewrite its row moves it safely. -/
def SafeMoves (cfg : ShareCfg n W PK) (c : Call (CoreOp n W PK)) (a : Act n W)
    (w : World (coreSig n W PK) (Share n W) (CoreOp n W PK) (CoreOut n W)) : Prop :=
  ∀ idx v old new b, c.op = .updateRow idx v old new b → a = .addSeq idx →
    w.mem.seq idx % 2 = 0 → MovesSafely cfg w.mem idx old new

/-- The logic of updates that leave a row wandering. -/
abbrev rowLogic (cfg : ShareCfg n W PK) (s₀ : Share n W) (idx : Int) (old : Image n W)
    (D : Index) : Logic (coreSig n W PK) (Share n W) (CoreOp n W PK) (Session n W) (CoreOut n W)
      (Option (Share n W)) :=
  (rowSections cfg idx).logic (Wanders cfg s₀ idx old D) (SafeMoves cfg)

section

variable {idx : Int} {old new : Image n W} {D : Index} {s₀ : Share n W} {m v : Nat}
  {b : Image n W} {c : Call (CoreOp n W PK)} {α : Type} {g : Option (Share n W)}

/-- What is aside may be done in and out of a section. -/
theorem safe_aside {p : Core n W PK α} (hp : Aside idx p) :
    (rowLogic cfg s₀ idx old D).Safe (machine cfg) c m p (fun _ g' => g' = g) g :=
  Sections.safe_quiet (fun _ hq => (loads_procBody hq).aside idx) hp g

/-- A silent program in a section does what it does alone. -/
theorem safe_silent {p : Core n W PK α} (hp : Silent p) {s s' : Share n W} {x : α}
    (h : (machine cfg).Runs c.tid p s x s') :
    (rowLogic cfg s₀ idx old D).Safe (machine cfg) c m p (fun y g => y = x ∧ g = some s')
      (some s) :=
  Sections.safe_work (fun _ _ => silent_procBody _) hp h

/-- The commit of an update, up to the release of the row lock. -/
theorem safe_commit (hothers : OtherRows cfg s₀ idx D) (hkeys : cfg.keys ≤ 64)
    (hop : c.op = .updateRow idx v old new b) (hs : Wanders cfg s₀ idx old D s)
    {f : Core n W PK α} {Q : α → Option (Share n W) → Prop}
    (hf : (rowLogic cfg s₀ idx old D).Safe (machine cfg) c m f Q none) :
    (rowLogic cfg s₀ idx old D).Safe (machine cfg) c m (do
      writeImage idx new
      moveKeys cfg idx old new (changedKeys cfg old new)
      access (.unlock (.row idx))
      f) Q (some s) := by
  cases m with
  | zero => trivial
  | succ m =>
      have hf := hf.mono (Nat.le_succ m)
      refine Sections.safe_step (X := rowSections cfg idx) (a := .addSeq idx) rfl
        fun w hview hA r s₁ hexec => ?_
      have hseq : w.mem.seq idx % 2 = 0 := by
        have heven := hs.even idx
        rw [← hview] at heven
        exact heven
      have hsafe : MovesSafely cfg s idx old new := by
        rw [← hview]
        exact hA idx v old new b hop rfl hseq
      obtain ⟨nx, hd, hmove, hs'⟩ := hs.commit hothers hkeys hsafe c.tid
      have hfirst : (machine cfg).Runs c.tid (access (.addSeq idx)) s r s₁ := runs_last hexec
      have hwrite := hfirst.after (runs_writeImage idx new)
      have hcopy : Silent (do
          copyIn idx new (List.finRange n)
          access (.addSeq idx) : Core n W PK Unit) :=
        only_bind (silent_copyIn ..) fun _ => only_access rfl
      refine Logic.Safe.bind (safe_silent hcopy hwrite) fun _ g hg => ?_
      obtain ⟨-, rfl⟩ := hg
      refine Logic.Safe.bind (safe_silent (silent_moveKeys ..) hmove) fun _ g hg => ?_
      obtain ⟨-, rfl⟩ := hg
      exact Sections.safe_leave (X := rowSections cfg idx) hs' fun _ => hf

/-- Every update of the row from `old` leaves it wandering. -/
theorem safe_updateRow (hothers : OtherRows cfg s₀ idx D) (hkeys : cfg.keys ≤ 64)
    (hop : c.op = .updateRow idx v old new b) :
    (rowLogic cfg s₀ idx old D).Safe (machine cfg) c m (updateRow cfg idx v old new b)
      (fun _ g => g = none) none := by
  have hend : ∀ r : WriteResult, (rowLogic cfg s₀ idx old D).Safe (machine cfg) c m
      (pure r : Core n W PK WriteResult) (fun _ g => g = none) none := fun r => Logic.Safe.ret rfl
  have hunlock : ∀ r : WriteResult, (rowLogic cfg s₀ idx old D).Safe (machine cfg) c m (do
      unlockAll (lockset cfg old new).reverse
      pure r : Core n W PK WriteResult) (fun _ g => g = none) none := by
    intro r
    refine Logic.Safe.bind (safe_aside (aside_unlockAll idx _)) fun _ g hg => ?_
    rw [hg]
    exact hend r
  unfold updateRow
  by_cases hch : changedKeys cfg old new = []
  · simp only [hch, if_true]
    refine Sections.safe_enter (X := rowSections cfg idx) fun s _ hs => ?_
    refine Logic.Safe.bind (p := verifySlot idx v) (safe_aside ((loads_verifySlot idx v).aside idx))
      fun valid g hg => ?_
    rw [hg]
    have hcommit := safe_commit hothers hkeys hop hs (hend ⟨.ok, none, none⟩)
    rw [hch] at hcommit
    cases valid with
    | true => exact hcommit
    | false => exact Sections.safe_leave (X := rowSections cfg idx) hs fun _ => hend _
  · simp only [hch, if_false]
    refine Logic.Safe.bind (safe_aside (aside_lockAll idx _ _)) fun _ g hg => ?_
    rw [hg]
    refine Logic.Safe.bind (safe_aside ((loads_dupChecks ..).aside idx)) fun dup g hg => ?_
    rw [hg]
    cases dup with
    | some k => exact hunlock _
    | none =>
        refine Sections.safe_enter (X := rowSections cfg idx) fun s _ hs => ?_
        refine Logic.Safe.bind (p := verifySlot idx v)
          (safe_aside ((loads_verifySlot idx v).aside idx)) fun valid g hg => ?_
        rw [hg]
        cases valid with
        | true => exact safe_commit hothers hkeys hop hs (hunlock _)
        | false => exact Sections.safe_leave (X := rowSections cfg idx) hs fun _ => hunlock _

end

/-- The index is in order: every chain is finite, and the chains of a key hold exactly the ACTIVE
slots, each in the bucket of its image. -/
def IndexInOrder (cfg : ShareCfg n W PK) (s : Share n W) : Prop :=
  ∃ C, s.Indexed C ∧ ∀ k, k < cfg.keys → ∀ b i, i ∈ C k b ↔ s.state i = .active ∧
    cfg.keyBucket k (s.data i) = b

/-- Updates of row `idx`, all with the old image `old`. -/
def CoreOp.moving [DecidableEq (Image n W)] (idx : Int) (old : Image n W) :
    CoreOp n W PK → Session n W → Bool
  | .updateRow i _ o _ _, _ => decide (i = idx ∧ o = old)
  | _, _ => false

section

variable {idx : Int} {old : Image n W}

/-- A row that has not been moved yet. -/
theorem IndexInOrder.wanders (h : IndexInOrder cfg s) (heven : ∀ i, s.seq i % 2 = 0)
    (hactive : s.state idx = .active) (old : Image n W) :
    ∃ D, OtherRows cfg s idx D ∧ Wanders cfg s idx old D s := by
  obtain ⟨C, hC, hmem⟩ := h
  refine ⟨fun k b => (C k b).erase idx, fun k hk b i => ?_, ⟨C, hC, fun k hk => ⟨?_, ?_⟩⟩, rfl,
    fun _ _ => rfl, heven⟩
  · rw [(hC k b).nodup.mem_erase_iff, hmem k hk b i]
  · have hself : idx ∈ C k (cfg.keyBucket k (s.data idx)) := (hmem k hk _ idx).mpr ⟨hactive, rfl⟩
    obtain ⟨pre, post, hL, hpre⟩ := List.eq_append_cons_of_mem hself
    refine ⟨_, pre, post, cfg.keyBucket_lt k (s.data idx), ?_, hL, fun b hb => Or.inl ?_⟩
    · show (C k (cfg.keyBucket k (s.data idx))).erase idx = pre ++ post
      rw [hL, List.erase_append_right _ hpre, List.erase_cons_head]
    · exact (List.erase_of_not_mem fun hi => hb ((hmem k hk b idx).mp hi).2.symm).symm
  · exact (hmem k hk _ idx).mpr ⟨hactive, rfl⟩

variable [DecidableEq (Image n W)]
  {c : Config (coreSig n W PK) (Share n W) (CoreOp n W PK) (Session n W) (CoreOut n W)}

/-- After safe moves, with no call in progress, the row has wandered. -/
theorem wanders_at_rest {D : Index} (hothers : OtherRows cfg s idx D) (hkeys : cfg.keys ≤ 64)
    (hs : Wanders cfg s idx old D s)
    (h : (coreSystem cfg (CoreOp.moving idx old)).Reach (SafeMoves cfg)
      (System.start s fun _ => Session.empty) c) (hrest : ∀ t, ∃ l, c.thr t = .idle l) :
    Wanders cfg s idx old D c.world.mem := by
  have hend : Wanders cfg s idx old D c.world.mem.unlocked := by
    refine System.Reach.at_rest (X := rowSections cfg idx) (P := Wanders cfg s idx old D)
      (fun k l m hmay => ?_) ⟨hs.chains, hs.state, hs.data, hs.even⟩ h hrest
    obtain ⟨t, op, st⟩ := k
    cases op with
    | updateRow i v o new b =>
        obtain ⟨rfl, rfl⟩ := of_decide_eq_true hmay
        exact (safe_updateRow hothers hkeys rfl).bind fun _ g hg => Logic.Safe.ret hg
    | _ => cases hmay
  exact ⟨hend.chains, hend.state, hend.data, hend.even⟩

omit [DecidableEq (Image n W)] in
/-- Between calls that take their own locks no lock is held. -/
theorem unlocked_at_rest {may : CoreOp n W PK → Session n W → Bool}
    (hself : ∀ o l, may o l = true → o.selfLocking = true) (hfree : ∀ l, s.owner l = none)
    {A : Call (CoreOp n W PK) → Act n W →
      World (coreSig n W PK) (Share n W) (CoreOp n W PK) (CoreOut n W) → Prop}
    (h : (coreSystem cfg may).Reach A (System.start s fun _ => Session.empty) c)
    (hrest : ∀ t, ∃ l, c.thr t = .idle l) (l : Lock) : c.world.mem.owner l = none := by
  have hcalls : (coreSystem cfg may).CallsSafe (coreLocks n W PK) :=
    fun t o l w γ hinv hidle hmay => core_calls_ascend cfg t o l w γ hinv hidle (hself o l hmay)
  have hinit : ∀ m, ∃ γ, (coreSystem cfg may).Holds (coreLocks n W PK) m
      (System.start s fun _ => Session.empty) γ :=
    System.holds_start (fun _ => ⟨[], []⟩)
      ⟨fun l t => by simp [hfree], fun _ => List.nodup_nil, fun _ => rfl⟩ fun _ => rfl
  obtain ⟨γ, hinv, hfits⟩ :=
    System.Reach.sound hcalls hinit (h.of_short fun _ _ _ _ => trivial) 1
  cases howner : c.world.mem.owner l with
  | none => rfl
  | some t =>
      obtain ⟨l', hl'⟩ := hrest t
      have hfit := hfits t
      rw [hl'] at hfit
      rw [hinv.owner, show (γ t).locks = [] from hfit] at howner
      cases howner

/-- **Racing moves lose no row** as long as each of them is safe.  Once all calls have returned,
every chain is finite, every lookup ends, and an index scan for a key delivers every ACTIVE row
that is equal to the key and hashed like it. -/
theorem racing_moves_lose_no_row (hkeys : cfg.keys ≤ 64) (hs : IndexInOrder cfg s)
    (heven : ∀ i, s.seq i % 2 = 0) (hfree : ∀ l, s.owner l = none)
    (hactive : s.state idx = .active)
    (h : (coreSystem cfg (CoreOp.moving idx old)).Reach (SafeMoves cfg)
      (System.start s fun _ => Session.empty) c) (hrest : ∀ t, ∃ l, c.thr t = .idle l) :
    (∃ C, c.world.mem.Indexed C) ∧ c.world.mem.state = s.state ∧
      ∀ k, k < cfg.keys → ∀ pk u buf, ∃ found,
        (machine cfg).Collects u (lookupCall cfg k pk) lookupMore (none, buf) c.world.mem found
          c.world.mem ∧
        ∀ i, Matches cfg c.world.mem k pk i →
          cfg.packedBucket k pk = cfg.keyBucket k (c.world.mem.data i) →
            (i, c.world.mem.data i) ∈ found := by
  obtain ⟨D, hothers, hwanders⟩ := hs.wanders heven hactive old
  have hend := wanders_at_rest hothers hkeys hwanders h hrest
  have hunlocked := unlocked_at_rest (fun o l hmay => by
    cases o <;> first | rfl | cases hmay) hfree h hrest
  obtain ⟨C, hC, hrows⟩ := hend.found hothers
  refine ⟨⟨C, hC⟩, hend.state, fun k hk pk u buf => ⟨_, collects_lookup hC hend.even k pk
    (hunlocked _) buf, fun i hi hbucket => ?_⟩⟩
  rw [mem_map_pair, List.mem_filter, decide_eq_true_eq]
  refine ⟨⟨?_, hi⟩, rfl⟩
  rw [hbucket]
  exact hrows k hk i hi.1

end

/-- The slots from `h` on, at most `fuel` of them. -/
def chainFrom (next : Int → Int) : Nat → Int → List Int
  | 0, _ => []
  | fuel + 1, h => if h = nullSlot then [] else h :: chainFrom next fuel (next h)

/-- A test of `MovesSafely`, for chains of at most `fuel` slots. -/
def movesSafely (cfg : ShareCfg n W PK) (fuel : Nat) (s : Share n W) (idx : Int)
    (old new : Image n W) : Bool :=
  (List.range cfg.keys).all fun k => (List.range (cfg.keydef k).nbuckets).all fun b =>
    let L := chainFrom (s.next k) fuel (s.head k b)
    decide (IsChain nullSlot (s.next k) (s.head k b) L) &&
      if k ∈ changedKeys cfg old new then
        decide (b ≠ cfg.keyBucket k old → idx ∈ L → b ≠ cfg.keyBucket k new ∧
          ∀ i ∈ behind idx L, s.state i = .active → cfg.keyBucket k (s.data i) ≠ b)
      else decide (b = cfg.keyBucket k new → idx ∈ L)

/-- It is enough. -/
theorem movesSafely_of_movesSafely {fuel : Nat} {idx : Int} {old new : Image n W}
    (h : movesSafely cfg fuel s idx old new = true) : MovesSafely cfg s idx old new := by
  intro C hC k hk
  have hkey := List.all_eq_true.mp h k (List.mem_range.mpr hk)
  have hbucket : ∀ b, b < (cfg.keydef k).nbuckets →
      (if k ∈ changedKeys cfg old new then
        decide (b ≠ cfg.keyBucket k old → idx ∈ C k b → b ≠ cfg.keyBucket k new ∧
          ∀ i ∈ behind idx (C k b), s.state i = .active → cfg.keyBucket k (s.data i) ≠ b)
      else decide (b = cfg.keyBucket k new → idx ∈ C k b)) = true := by
    intro b hb
    obtain ⟨hchain, htest⟩ :=
      Bool.and_eq_true_iff.mp (List.all_eq_true.mp hkey b (List.mem_range.mpr hb))
    rwa [(of_decide_eq_true hchain).unique (hC k b)] at htest
  by_cases hch : k ∈ changedKeys cfg old new
  · rw [if_pos hch]
    intro b hb
    have htest := hbucket b hb
    rw [if_pos hch] at htest
    exact of_decide_eq_true htest
  · rw [if_neg hch]
    have htest := hbucket _ (cfg.keyBucket_lt k new)
    rw [if_neg hch] at htest
    exact of_decide_eq_true htest rfl

/-- A test of `SafeMoves`. -/
def safeMoves (cfg : ShareCfg n W PK) (fuel : Nat) (c : Call (CoreOp n W PK)) (a : Act n W)
    (w : World (coreSig n W PK) (Share n W) (CoreOp n W PK) (CoreOut n W)) : Bool :=
  match c.op, a with
  | .updateRow idx _ old new _, .addSeq _ => movesSafely cfg fuel w.mem idx old new
  | _, _ => true

/-- It is enough. -/
theorem safeMoves_of_safeMoves {fuel : Nat} {c : Call (CoreOp n W PK)} {a : Act n W}
    {w : World (coreSig n W PK) (Share n W) (CoreOp n W PK) (CoreOut n W)}
    (h : safeMoves cfg fuel c a w = true) : SafeMoves cfg c a w := by
  intro idx v old new b hop ha _
  subst ha
  unfold safeMoves at h
  rw [hop] at h
  exact movesSafely_of_movesSafely h

/-- After calls the index is in order. -/
theorem IndexInOrder.of_quiet (h : Quiet cfg t s) :
    IndexInOrder cfg s ∧ ∀ i, s.seq i % 2 = 0 := by
  obtain ⟨⟨C, F, hcons⟩, -⟩ := h
  exact ⟨⟨C, hcons.index, hcons.index_mem⟩, hcons.seq_even⟩

/-- Row 0 is moved to an empty bucket and, from the same old image, on to the bucket of row 6;
both rows are still found. -/
theorem racing_moves_lose_no_row_twice_moved :
    ∃ s c found, IndexInOrder (wordTable 1) s ∧
      (coreSystem (wordTable 1) (CoreOp.moving 0 fun _ => 0)).Reach (SafeMoves (wordTable 1))
        (System.start s fun _ => Session.empty) c ∧
      c.world.log.length = 2 ∧ c.world.mem.head 0 1 = 0 ∧ c.world.mem.head 0 2 = 0 ∧
      (machine (wordTable 1)).Collects 0 (lookupCall (wordTable 1) 0 6) lookupMore
        (none, fun _ => 0) c.world.mem found c.world.mem ∧ (1, fun _ => 6) ∈ found := by
  let ops : List (CoreOp 1 Nat Nat) :=
    [.insertRow (fun _ => 6) fun _ => 0, .insertRow (fun _ => 0) fun _ => 0]
  let steps : List (Label (CoreOp 1 Nat Nat)) :=
    [.invoke 0 (.updateRow 0 0 (fun _ => 0) (fun _ => 1) fun _ => 0),
      .invoke 1 (.updateRow 0 0 (fun _ => 0) (fun _ => 2) fun _ => 0)] ++
      Label.steps 0 21 ++ Label.steps 1 26
  have hrun : (callAllowed (wordTable 1) 0 200 ops (Share.fresh fun _ _ => 0)).any (fun s =>
      decide (s.state 0 = .active) && (System.rehearse
        (coreSystem (wordTable 1) (CoreOp.moving 0 fun _ => 0)) (safeMoves (wordTable 1) 8)
        (System.start s fun _ => Session.empty) steps).any fun c =>
          decide (c.world.log.length = 2 ∧ c.world.mem.head 0 1 = 0 ∧ c.world.mem.head 0 2 = 0 ∧
            c.world.mem.state 1 = .active ∧ c.world.mem.data 1 = fun _ => 6) &&
          (isIdle c 0 && isIdle c 1)) = true := by
    decide +kernel
  obtain ⟨s, hops, hs⟩ := (Option.any_eq_true _ _).mp hrun
  obtain ⟨hactive, hmoves⟩ := Bool.and_eq_true_iff.mp hs
  obtain ⟨c, hc, hend⟩ := (Option.any_eq_true _ _).mp hmoves
  obtain ⟨hchains, hidle⟩ := Bool.and_eq_true_iff.mp hend
  obtain ⟨hlog, hhead₁, hhead₂, hrow, hdata⟩ := of_decide_eq_true hchains
  have hhash := hashRespects_wordTable 1
  obtain ⟨hindex, heven⟩ := IndexInOrder.of_quiet ((CallSeq.of_callAllowed hops).quiet hhash
    (by decide))
  have hfree := free_of_callAllowed hhash (by decide) (by decide) hops
  have hreach := System.Reach.of_rehearse (fun _ _ _ h => safeMoves_of_safeMoves h) _ steps hc
  have hrest := idle_of_schedule (System.schedule_of_rehearse hc) (by decide +kernel)
    (Bool.and_eq_true_iff.mp hidle)
  obtain ⟨-, -, hfound⟩ := racing_moves_lose_no_row (by decide) hindex heven hfree
    (of_decide_eq_true hactive) hreach hrest
  obtain ⟨found, hcollects, hall⟩ := hfound 0 (by decide) 6 0 fun _ => 0
  have hmatch : Matches (wordTable 1) c.world.mem 0 6 1 := ⟨hrow, by rw [hdata]; rfl⟩
  have hmem := hall 1 hmatch (by rw [hdata]; rfl)
  rw [hdata] at hmem
  exact ⟨s, c, found, hindex, hreach, hlog, hhead₁, hhead₂, hcollects, hmem⟩

/-- Row 0 is moved to the bucket of row 5 and, from the same old image, on to an empty bucket: row
5 is still ACTIVE, and no lookup finds it. -/
theorem row_lost_by_racing_move :
    ∃ s c, IndexInOrder (wordTable 1) s ∧ (∀ i, s.seq i % 2 = 0) ∧ (∀ l, s.owner l = none) ∧
      s.state 0 = .active ∧ s.data 0 = (fun _ => 0) ∧
      (coreSystem (wordTable 1) (CoreOp.moving 0 fun _ => 0)).Reach (fun _ _ _ => True)
        (System.start s fun _ => Session.empty) c ∧
      (∀ t, ∃ l, c.thr t = .idle l) ∧ c.world.log.length = 2 ∧
      (∀ ev ∈ c.world.log, ev.out.succeeded = true) ∧
      c.world.mem.state 1 = .active ∧ c.world.mem.data 1 = (fun _ => 5) ∧
      ∃ img idx s', (machine (wordTable 1)).Runs 0 (find (wordTable 1) 0 5 fun _ => 0) c.world.mem
        (.notFound, img, idx) s' := by
  let ops : List (CoreOp 1 Nat Nat) :=
    [.insertRow (fun _ => 5) fun _ => 0, .insertRow (fun _ => 0) fun _ => 0]
  let steps : List (Label (CoreOp 1 Nat Nat)) :=
    [.invoke 0 (.updateRow 0 0 (fun _ => 0) (fun _ => 1) fun _ => 0),
      .invoke 1 (.updateRow 0 0 (fun _ => 0) (fun _ => 2) fun _ => 0)] ++
      Label.steps 0 28 ++ Label.steps 1 19
  have hrun : (callAllowed (wordTable 1) 0 200 ops (Share.fresh fun _ _ => 0)).any (fun s =>
      decide (s.state 0 = .active ∧ s.data 0 = fun _ => 0) && (System.schedule
        (coreSystem (wordTable 1) (CoreOp.moving 0 fun _ => 0))
        (System.start s fun _ => Session.empty) steps).any fun c =>
          (decide (c.world.log.length = 2 ∧ (∀ ev ∈ c.world.log, ev.out.succeeded = true) ∧
              c.world.mem.state 1 = .active ∧ c.world.mem.data 1 = fun _ => 5) &&
            ((machine (wordTable 1)).eval 0 60 (find (wordTable 1) 0 5 fun _ => 0)
              c.world.mem).any fun x => decide (x.1.1 = .notFound)) &&
          (isIdle c 0 && isIdle c 1)) = true := by
    decide +kernel
  obtain ⟨s, hops, hs⟩ := (Option.any_eq_true _ _).mp hrun
  obtain ⟨hstart, hmoves⟩ := Bool.and_eq_true_iff.mp hs
  obtain ⟨hactive, hdata⟩ := of_decide_eq_true hstart
  obtain ⟨c, hc, hend⟩ := (Option.any_eq_true _ _).mp hmoves
  obtain ⟨hlost, hidle⟩ := Bool.and_eq_true_iff.mp hend
  obtain ⟨hrow, hfind⟩ := Bool.and_eq_true_iff.mp hlost
  obtain ⟨hlog, hwrote, hactive₁, hdata₁⟩ := of_decide_eq_true hrow
  obtain ⟨⟨⟨rc, img, idx⟩, s'⟩, heval, hnot⟩ := (Option.any_eq_true _ _).mp hfind
  obtain rfl : rc = .notFound := of_decide_eq_true hnot
  have hhash := hashRespects_wordTable 1
  obtain ⟨hindex, heven⟩ := IndexInOrder.of_quiet ((CallSeq.of_callAllowed hops).quiet hhash
    (by decide))
  have hfree := free_of_callAllowed hhash (by decide) (by decide) hops
  have hidles := idle_of_schedule hc (by decide +kernel) (Bool.and_eq_true_iff.mp hidle)
  exact ⟨s, c, hindex, heven, hfree, hactive, hdata, System.Reach.of_schedule _ _ steps hc, hidles,
    hlog, hwrote, hactive₁, hdata₁, img, idx, s', .of_eval heval⟩

end FastMem
