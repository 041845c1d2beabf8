import FastMem.Chain
import FastMem.Core

/-!
# The core running alone

What each function of the core does when one thread runs it with nobody else
around: the result, and the share it leaves.  All statements are total, in the
sense of `Machine.Runs`: the walk along a chain ends because the chain is finite,
a seqlock read succeeds at the first attempt because no write is in progress, and
a lock is taken because it is free.

The hash index and the free list are described by the lists of their chains.
-/

namespace FastMem

open Conc

variable {n : Nat} {W PK : Type} {cfg : ShareCfg n W PK} {t : Nat} {s s' s'' : Share n W}
  {α β : Type}

/-- The chains of the hash index, for each key and bucket. -/
abbrev Index := Nat → Nat → List Int

/-- The index of a share consists of the chains `C`. -/
def Share.Indexed (s : Share n W) (C : Index) : Prop :=
  ∀ k b, IsChain nullSlot (s.next k) (s.head k b) (C k b)

/-- The free list of a share is `F`. -/
def Share.FreeList (s : Share n W) (F : List Int) : Prop :=
  IsChain nullSlot s.freeNext s.freeHead F

/-- The same share with other chain cells and heads. -/
def Share.withIndex (s : Share n W) (next : Nat → Int → Int) (head : Nat → Nat → Int) : Share n W :=
  { s with next := next, head := head }

/-- A second replacement hides the first. -/
@[simp] theorem withIndex_withIndex (nx nx' : Nat → Int → Int) (hd hd' : Nat → Nat → Int) :
    (s.withIndex nx hd).withIndex nx' hd' = s.withIndex nx' hd' := rfl

/-- The index with the chain of bucket `b` of key `k` replaced. -/
def Index.set (C : Index) (k b : Nat) (L : List Int) : Index :=
  Function.update C k (Function.update (C k) b L)

/-- The chain of a bucket is the one that was set. -/
@[simp] theorem Index.set_self (C : Index) (k b : Nat) (L : List Int) : C.set k b L k b = L := by
  simp [Index.set]

/-- The other chains are as they were. -/
theorem Index.set_of_ne (C : Index) {k b k' b' : Nat} (L : List Int) (h : ¬ (k' = k ∧ b' = b)) :
    C.set k b L k' b' = C k' b' := by
  by_cases hk : k' = k
  · subst hk
    have hb : b' ≠ b := fun hb => h ⟨rfl, hb⟩
    simp [Index.set, hb]
  · simp [Index.set, hk]

/-- Setting a chain to itself changes nothing. -/
@[simp] theorem Index.set_get (C : Index) (k b : Nat) : C.set k b (C k b) = C := by
  simp [Index.set]

/-- A run of an access, and of what comes after it. -/
theorem runs_access {a : Act n W} {f : a.Res → Core n W PK α} {r : a.Res} {x : α}
    (hexec : exec cfg t a s = some (r, s')) (hrest : (machine cfg).Runs t (f r) s' x s'') :
    (machine cfg).Runs t (access a >>= f) s x s'' :=
  .act hexec hrest

/-- A run of a single access. -/
theorem runs_last {a : Act n W} {r : a.Res} (hexec : exec cfg t a s = some (r, s')) :
    (machine cfg).Runs t (access a) s r s' :=
  .act hexec (.ret r s')

/-- A run of one program after another. -/
theorem runs_then {p : Core n W PK α} {f : α → Core n W PK β} {a : α} {b : β}
    (hp : (machine cfg).Runs t p s a s') (hf : (machine cfg).Runs t (f a) s' b s'') :
    (machine cfg).Runs t (p >>= f) s b s'' :=
  hp.bind hf

/-- A result takes no step. -/
theorem runs_pure {a : α} : (machine cfg).Runs t (pure a : Core n W PK α) s a s :=
  .ret a s

/-- A run of a loop is one of its body. -/
theorem runs_loop {p : Proc n W PK} {x : p.Ret} (h : (machine cfg).Runs t (procBody cfg p) s x s') :
    (machine cfg).Runs t (loop p) s x s' :=
  .enter h

/-- A lock operation keeps the states. -/
@[simp] theorem setOwner_state (o : Option Nat) (l : Lock) : (s.setOwner o l).state = s.state := by
  cases l <;> rfl

@[simp] theorem setOwner_seq (o : Option Nat) (l : Lock) : (s.setOwner o l).seq = s.seq := by
  cases l <;> rfl

@[simp] theorem setOwner_gen (o : Option Nat) (l : Lock) : (s.setOwner o l).gen = s.gen := by
  cases l <;> rfl

@[simp] theorem setOwner_data (o : Option Nat) (l : Lock) : (s.setOwner o l).data = s.data := by
  cases l <;> rfl

@[simp] theorem setOwner_next (o : Option Nat) (l : Lock) : (s.setOwner o l).next = s.next := by
  cases l <;> rfl

@[simp] theorem setOwner_head (o : Option Nat) (l : Lock) : (s.setOwner o l).head = s.head := by
  cases l <;> rfl

/-- Links and owners are apart. -/
theorem setOwner_withIndex (o : Option Nat) (l : Lock) (nx : Nat → Int → Int)
    (hd : Nat → Nat → Int) :
    (s.setOwner o l).withIndex nx hd = (s.withIndex nx hd).setOwner o l := by
  cases l <;> rfl

/-- A lock taken and given back is as free as before. -/
theorem setOwner_none_setOwner {l : Lock} (hfree : s.owner l = none) (o : Option Nat) :
    (s.setOwner o l).setOwner none l = s := by
  cases l with
  | mutex =>
      have h : s.mutex = none := hfree
      cases s
      simp_all [Share.setOwner]
  | bucket k b =>
      have h : s.bucketLock k b = none := hfree
      have h' : Function.update (Function.update (s.bucketLock k) b o) b none = s.bucketLock k := by
        rw [Function.update_idem, ← h, Function.update_eq_self]
      simp [Share.setOwner, h']
  | row i =>
      have h : s.wlock i = none := hfree
      have h' : Function.update (Function.update s.wlock i o) i none = s.wlock := by
        rw [Function.update_idem, ← h, Function.update_eq_self]
      simp [Share.setOwner, h']

/-- A free lock may be taken. -/
theorem exec_lock {l : Lock} (hfree : s.owner l = none) :
    exec cfg t (.lock l) s = some ((), s.setOwner (some t) l) := by
  simp [exec, hfree]

/-- The words of `js` copied from one image over another. -/
def overwrite (js : List (Fin n)) (src buf : Image n W) : Image n W :=
  fun j => if j ∈ js then src j else buf j

/-- One word first, then the others. -/
theorem overwrite_cons (j : Fin n) (js : List (Fin n)) (src buf : Image n W) :
    overwrite js src (Function.update buf j (src j)) = overwrite (j :: js) src buf := by
  funext i
  by_cases hi : i = j
  · subst hi
    simp [overwrite]
  · simp [overwrite, hi]

/-- Overwriting every word leaves nothing of the old image. -/
@[simp] theorem overwrite_finRange (src buf : Image n W) :
    overwrite (List.finRange n) src buf = src := by
  funext j
  simp [overwrite]

/-- Copying out returns the words of the slot. -/
theorem runs_copyOut (idx : Int) (js : List (Fin n)) (buf : Image n W) :
    (machine cfg).Runs t (copyOut idx js buf) s (overwrite js (s.data idx) buf) s := by
  induction js generalizing buf with
  | nil =>
      have : overwrite [] (s.data idx) buf = buf := by
        funext j
        simp [overwrite]
      rw [this]
      exact runs_pure
  | cons j js ih =>
      rw [← overwrite_cons]
      exact runs_access rfl (ih _)

/-- The same share with another image in slot `idx`. -/
def Share.withData (s : Share n W) (idx : Int) (img : Image n W) : Share n W :=
  { s with data := Function.update s.data idx img }

/-- Copying in leaves them in the slot. -/
theorem runs_copyIn (idx : Int) (rec : Image n W) (js : List (Fin n)) :
    (machine cfg).Runs t (copyIn idx rec js) s ()
      (s.withData idx (overwrite js rec (s.data idx))) := by
  induction js generalizing s with
  | nil =>
      have h : overwrite [] rec (s.data idx) = s.data idx := by
        funext j
        simp [overwrite]
      have h' : s.withData idx (s.data idx) = s := by
        simp [Share.withData]
      rw [h, h']
      exact runs_pure
  | cons j js ih =>
      refine runs_access rfl ?_
      have h := ih (s := s.withData idx (Function.update (s.data idx) j (rec j)))
      have hdata : (s.withData idx (Function.update (s.data idx) j (rec j))).data idx =
          Function.update (s.data idx) j (rec j) := by
        simp [Share.withData]
      rw [hdata, overwrite_cons] at h
      have hidem : (s.withData idx (Function.update (s.data idx) j (rec j))).withData idx
          (overwrite (j :: js) rec (s.data idx)) =
          s.withData idx (overwrite (j :: js) rec (s.data idx)) := by
        simp [Share.withData]
      rw [hidem] at h
      exact h

/-- Copying out a whole image, whatever was in the buffer. -/
theorem runs_copyOut_all (idx : Int) (buf : Image n W) :
    (machine cfg).Runs t (copyOut idx (List.finRange n) buf) s (s.data idx) s := by
  have h : (machine cfg).Runs t (copyOut idx (List.finRange n) buf) s
      (overwrite (List.finRange n) (s.data idx) buf) s := runs_copyOut idx (List.finRange n) buf
  rwa [overwrite_finRange] at h

/-- Copying in a whole image. -/
theorem runs_copyIn_all (idx : Int) (rec : Image n W) :
    (machine cfg).Runs t (copyIn idx rec (List.finRange n)) s () (s.withData idx rec) := by
  have h : (machine cfg).Runs t (copyIn idx rec (List.finRange n)) s ()
      (s.withData idx (overwrite (List.finRange n) rec (s.data idx))) :=
    runs_copyIn idx rec (List.finRange n)
  rwa [overwrite_finRange] at h

/-- `fm_core_write_image` replaces the image and bumps the sequence number by
two. -/
theorem runs_writeImage (idx : Int) (rec : Image n W) :
    (machine cfg).Runs t (writeImage idx rec) s ()
      { s.withData idx rec with
        seq := Function.update s.seq idx (((s.seq idx + 1) % 2 ^ 32 + 1) % 2 ^ 32) } := by
  refine runs_access rfl (runs_then (runs_copyIn_all idx rec) ?_)
  refine runs_last ?_
  simp [exec, Share.withData]

/-- `fm_core_read_row` of a row that is there, with no write in progress. -/
theorem runs_readRow {idx : Int} (heven : s.seq idx % 2 = 0) (hactive : s.state idx = .active)
    {cg : Bool} {g : Nat} (hgen : cg = true → s.gen idx = g) (buf : Image n W) :
    (machine cfg).Runs t (readRow idx cg g buf) s (.ok, s.data idx) s := by
  have hcopy : (machine cfg).Runs t (readRowCopy idx cg g buf) s (.ok, s.data idx) s := by
    have hodd : ¬ s.seq idx % 2 = 1 := by omega
    refine runs_access rfl ?_
    rw [if_neg hodd]
    refine runs_then (runs_copyOut_all idx buf) (runs_access rfl ?_)
    rw [if_neg (by simp)]
    exact runs_pure
  refine runs_loop (runs_access rfl ?_)
  rw [if_neg (by simpa using hactive)]
  cases cg with
  | false => exact hcopy
  | true =>
      refine runs_access rfl ?_
      rw [if_neg (by simpa using hgen rfl)]
      exact hcopy

/-- `fm_core_read_row` of a row that is gone. -/
theorem runs_readRow_gone {idx : Int} {cg : Bool} {g : Nat} (buf : Image n W)
    (hgone : s.state idx ≠ .active ∨ cg = true ∧ s.gen idx ≠ g) :
    (machine cfg).Runs t (readRow idx cg g buf) s (.deleted, buf) s := by
  refine runs_loop (runs_access rfl ?_)
  by_cases hactive : s.state idx = .active
  · obtain ⟨rfl, hg⟩ := hgone.resolve_left (fun h => h hactive)
    rw [if_neg (by simpa using hactive)]
    refine runs_access rfl ?_
    rw [if_pos hg]
    exact runs_pure
  · rw [if_pos hactive]
    exact runs_pure

/-- `fm_core_chain_link`. -/
theorem runs_chainLink (k b : Nat) (idx : Int) :
    (machine cfg).Runs t (chainLink k b idx) s ()
      (s.withIndex (Function.update s.next k (Function.update (s.next k) idx (s.head k b)))
        (Function.update s.head k (Function.update (s.head k) b idx))) :=
  runs_access rfl (runs_access rfl (runs_last rfl))

/-- Linking a slot puts it in front of its new chain, and a chain of the key that still holds
the slot goes on from there as the new chain does. -/
theorem indexed_relink {C C' : Index} (hC : s.Indexed C) {k b : Nat} {idx : Int}
    (hidx : idx ∉ C k b) (hne : idx ≠ nullSlot) (hself : C' k b = idx :: C k b)
    (hother : ∀ b', b' ≠ b → idx ∉ C k b' ∧ C' k b' = C k b' ∨
      ∃ pre post, C k b' = pre ++ idx :: post ∧ C' k b' = pre ++ idx :: C k b)
    (hkeys : ∀ k', k' ≠ k → C' k' = C k') :
    (s.withIndex (Function.update s.next k (Function.update (s.next k) idx (s.head k b)))
      (Function.update s.head k (Function.update (s.head k) b idx))).Indexed C' := by
  intro k' b'
  by_cases hk : k' = k
  · subst hk
    by_cases hb : b' = b
    · subst hb
      rw [hself]
      simpa [Share.withIndex] using (hC k' b').push hidx hne
    · obtain ⟨hout, heq⟩ | ⟨pre, post, hL, heq⟩ := hother b' hb
      · rw [heq]
        simpa [Share.withIndex, hb] using (hC k' b').update hout _
      · have hchain := hC k' b'
        rw [hL] at hchain
        rw [heq]
        simpa [Share.withIndex, hb] using hchain.redirect (hC k' b) hidx
  · rw [hkeys k' hk]
    simpa [Share.withIndex, hk] using hC k' b'

/-- Linking a slot that is in no chain of the key puts it in front. -/
theorem indexed_link {C : Index} (hC : s.Indexed C) {k b : Nat} {idx : Int}
    (hidx : ∀ b', idx ∉ C k b') (hne : idx ≠ nullSlot) :
    (s.withIndex (Function.update s.next k (Function.update (s.next k) idx (s.head k b)))
      (Function.update s.head k (Function.update (s.head k) b idx))).Indexed
        (C.set k b (idx :: C k b)) := by
  refine indexed_relink hC (hidx b) hne (Index.set_self ..) (fun b' hb => Or.inl ?_) fun k' hk => ?_
  · exact ⟨hidx b', Index.set_of_ne _ _ fun h => hb h.2⟩
  · funext b'
    exact Index.set_of_ne _ _ fun h => hk h.1

/-- The cell a walk stands at once it has passed the slots `pre`. -/
def linkAfter (b : Nat) (pre : List Int) : Link :=
  match pre.getLast? with
  | none => .head b
  | some p => .next p

/-- The link in front of a chain is its head. -/
@[simp] theorem linkAfter_nil (b : Nat) : linkAfter b [] = .head b := rfl

/-- The link behind a slot is the slot's own. -/
@[simp] theorem linkAfter_concat (b : Nat) (pre : List Int) (p : Int) :
    linkAfter b (pre ++ [p]) = .next p := by
  simp [linkAfter]

/-- The value of the cell a walk stands at. -/
def Share.link (s : Share n W) (k : Nat) : Link → Int
  | .head b => s.head k b
  | .next i => s.next k i

/-- A run that reads a link. -/
theorem runs_loadLink (k : Nat) (link : Link) :
    (machine cfg).Runs t (loadLink k link) s (s.link k link) s := by
  cases link <;> exact runs_last rfl

/-- The rest of a chain begins where the link points. -/
theorem link_after {k b : Nat} {pre post : List Int}
    (hL : IsChain nullSlot (s.next k) (s.head k b) (pre ++ post)) :
    IsChain nullSlot (s.next k) (s.link k (linkAfter b pre)) post := by
  rcases List.eq_nil_or_concat pre with rfl | ⟨pre', p, rfl⟩
  · exact hL
  · rw [List.concat_eq_append] at hL ⊢
    rw [List.append_assoc, List.singleton_append] at hL
    rw [linkAfter_concat]
    exact hL.after

/-- What `storeLink` does to the share. -/
def Share.setLink (s : Share n W) (k : Nat) (j : Int) : Link → Share n W
  | .head b => s.withIndex s.next (Function.update s.head k (Function.update (s.head k) b j))
  | .next i => s.withIndex (Function.update s.next k (Function.update (s.next k) i j)) s.head

/-- A run that stores a link. -/
theorem runs_storeLink (k : Nat) (j : Int) (link : Link) :
    (machine cfg).Runs t (storeLink k j link) s () (s.setLink k j link) := by
  cases link <;> exact runs_last rfl

/-- Redirecting the cell before a slot takes the slot off its chain. -/
theorem indexed_cut {C : Index} (hC : s.Indexed C) {k b : Nat} {pre post : List Int}
    (hpre : ∀ b', b' ≠ b → ∀ p ∈ pre, p ∉ C k b') {idx : Int} (hL : C k b = pre ++ idx :: post) :
    (s.setLink k (s.next k idx) (linkAfter b pre)).Indexed (C.set k b (pre ++ post)) := by
  have hchain := hC k b
  rw [hL] at hchain
  intro k' b'
  rcases List.eq_nil_or_concat pre with rfl | ⟨pre', p, rfl⟩
  · -- the first slot: the head is redirected
    rw [linkAfter_nil]
    by_cases hkb : k' = k ∧ b' = b
    · obtain ⟨rfl, rfl⟩ := hkb
      simpa [Share.setLink, Share.withIndex] using hchain.2.2
    · rw [Index.set_of_ne _ _ hkb]
      have hhead : Function.update s.head k (Function.update (s.head k) b (s.next k idx)) k' b' =
          s.head k' b' := by
        by_cases hk : k' = k
        · subst hk
          have hb : b' ≠ b := fun hb => hkb ⟨rfl, hb⟩
          simp [hb]
        · simp [hk]
      simp only [Share.setLink, Share.withIndex, hhead]
      exact hC k' b'
  · have hp : p ∈ pre'.concat p := by simp
    rw [List.concat_eq_append] at hchain ⊢
    rw [List.append_assoc, List.singleton_append] at hchain
    rw [linkAfter_concat]
    by_cases hkb : k' = k ∧ b' = b
    · obtain ⟨rfl, rfl⟩ := hkb
      simpa [Share.setLink, Share.withIndex] using hchain.cut
    · rw [Index.set_of_ne _ _ hkb]
      by_cases hk : k' = k
      · subst hk
        have hnot : p ∉ C k' b' := hpre b' (fun hb => hkb ⟨rfl, hb⟩) p hp
        simpa [Share.setLink, Share.withIndex] using (hC k' b').update hnot _
      · simpa [Share.setLink, Share.withIndex, hk] using hC k' b'

/-- `fm_core_chain_unlink` of a slot that is not in the chain changes nothing. -/
theorem runs_chainUnlink_of_notMem (cfg : ShareCfg n W PK) (t : Nat) {k b : Nat} {idx : Int}
    {L : List Int} (hL : IsChain nullSlot (s.next k) (s.head k b) L) (hidx : idx ∉ L) :
    (machine cfg).Runs t (chainUnlink k b idx) s .notFound s := by
  -- induction along the rest of the chain; the slots passed are `pre`
  have hwalk : ∀ post pre, L = pre ++ post →
      (machine cfg).Runs t (loop (.unlinkWalk k (linkAfter b pre) idx)) s .notFound s := by
    intro post
    induction post with
    | nil =>
        intro pre hpre
        have hend : IsChain nullSlot (s.next k) (s.link k (linkAfter b pre)) [] :=
          link_after (hpre ▸ hL)
        have hnull : s.link k (linkAfter b pre) = nullSlot := hend
        refine runs_loop (runs_then (runs_loadLink k _) ?_)
        rw [if_pos hnull]
        exact runs_pure
    | cons a post ih =>
        intro pre hpre
        obtain ⟨ha, hne, -⟩ : IsChain nullSlot (s.next k) _ (a :: post) := link_after (hpre ▸ hL)
        have hpast : a ≠ idx := fun heq => hidx (by simp [hpre, heq])
        have hruns := ih (pre ++ [a]) (by simp [hpre])
        rw [linkAfter_concat] at hruns
        refine runs_loop (runs_then (runs_loadLink k _) ?_)
        rw [if_neg (by rw [ha]; exact hne), if_neg (by rw [ha]; exact hpast), ha]
        exact hruns
  exact hwalk L [] rfl

/-- `fm_core_chain_unlink` of a slot in the chain redirects the cell in front of it. -/
theorem runs_chainUnlink_of_mem (cfg : ShareCfg n W PK) (t : Nat) {k b : Nat} {idx : Int}
    {pre post : List Int} (hL : IsChain nullSlot (s.next k) (s.head k b) (pre ++ idx :: post)) :
    (machine cfg).Runs t (chainUnlink k b idx) s .ok
      (s.setLink k (s.next k idx) (linkAfter b pre)) := by
  have hidx : idx ∉ pre := fun hmem =>
    (List.nodup_append.mp hL.nodup).2.2 idx hmem idx List.mem_cons_self rfl
  -- induction along the slots in front of it; those passed are `front`
  have hwalk : ∀ mid front, pre = front ++ mid →
      (machine cfg).Runs t (loop (.unlinkWalk k (linkAfter b front) idx)) s .ok
        (s.setLink k (s.next k idx) (linkAfter b pre)) := by
    intro mid
    induction mid with
    | nil =>
        intro front hfront
        rw [List.append_nil] at hfront
        obtain ⟨ha, hne, -⟩ : IsChain nullSlot (s.next k) _ (idx :: post) := link_after hL
        rw [← hfront]
        refine runs_loop (runs_then (runs_loadLink k _) ?_)
        rw [if_neg (by rw [ha]; exact hne), if_pos ha]
        refine runs_access rfl (runs_then (runs_storeLink k _ _) ?_)
        exact runs_pure
    | cons a mid ih =>
        intro front hfront
        have hL' : IsChain nullSlot (s.next k) (s.head k b)
            (front ++ a :: (mid ++ idx :: post)) := by
          simpa [hfront] using hL
        obtain ⟨ha, hne, -⟩ : IsChain nullSlot (s.next k) _ (a :: _) := link_after hL'
        have hpast : a ≠ idx := fun heq => hidx (by simp [hfront, heq])
        have hruns := ih (front ++ [a]) (by simp [hfront])
        rw [linkAfter_concat] at hruns
        refine runs_loop (runs_then (runs_loadLink k _) ?_)
        rw [if_neg (by rw [ha]; exact hne), if_neg (by rw [ha]; exact hpast), ha]
        exact hruns
  exact hwalk pre [] rfl

/-- `fm_core_chain_unlink`: the slot leaves the chain, if it was there. -/
theorem runs_chainUnlink (cfg : ShareCfg n W PK) (t : Nat) {C : Index} (hC : s.Indexed C)
    (hdisj : ∀ k b b' i, i ∈ C k b → i ∈ C k b' → b = b') (k b : Nat) (idx : Int) :
    ∃ nx hd, (machine cfg).Runs t (chainUnlink k b idx) s
        (if idx ∈ C k b then .ok else .notFound) (s.withIndex nx hd) ∧
      (s.withIndex nx hd).Indexed (C.set k b ((C k b).erase idx)) := by
  by_cases hmem : idx ∈ C k b
  · obtain ⟨pre, post, hL, hidx⟩ := List.eq_append_cons_of_mem hmem
    have hchain := hC k b
    rw [hL] at hchain
    have hruns := runs_chainUnlink_of_mem cfg t hchain
    have hset := indexed_cut hC (fun b' hb p hp hmem' =>
      hb (hdisj k b' b p hmem' (by rw [hL]; exact List.mem_append_left _ hp))) hL
    have herase : (C k b).erase idx = pre ++ post := by
      rw [hL, List.erase_append_right _ hidx, List.erase_cons_head]
    rw [if_pos hmem, herase]
    refine ⟨(s.setLink k (s.next k idx) (linkAfter b pre)).next,
      (s.setLink k (s.next k idx) (linkAfter b pre)).head, ?_, ?_⟩
    · cases hlink : linkAfter b pre <;> rw [hlink] at hruns <;> exact hruns
    · cases hlink : linkAfter b pre <;> rw [hlink] at hset <;> exact hset
  · refine ⟨s.next, s.head, ?_, ?_⟩
    · rw [if_neg hmem]
      exact runs_chainUnlink_of_notMem cfg t (hC k b) hmem
    · rw [List.erase_of_not_mem hmem, Index.set_get]
      exact hC

/-- Key `k` is unique, `rec` has no NULL part in it, and some ACTIVE row of the
chain `L` equals `rec` on it. -/
def DuplicateIn (cfg : ShareCfg n W PK) (s : Share n W) (k : Nat) (rec : Image n W)
    (L : List Int) : Prop :=
  (cfg.keydef k).unique = true ∧ (cfg.keydef k).ops.hasNullPart rec = false ∧
    ∃ i ∈ L, s.state i = .active ∧ (cfg.keydef k).ops.cmpRecRec (s.data i) rec = 0

instance (cfg : ShareCfg n W PK) (s : Share n W) (k : Nat) (rec : Image n W) (L : List Int) :
    Decidable (DuplicateIn cfg s k rec L) :=
  inferInstanceAs (Decidable (_ ∧ _ ∧ ∃ i ∈ L, _))

/-- The walk of `fm_core_dup_check`: whether some ACTIVE row of the chain equals the
record. -/
theorem runs_dupWalk (cfg : ShareCfg n W PK) (t : Nat) (heven : ∀ i, s.seq i % 2 = 0) (k : Nat)
    (rec scratch : Image n W) {L : List Int} {h : Int} (hL : IsChain nullSlot (s.next k) h L) :
    (machine cfg).Runs t (loop (.dupWalk k rec scratch h)) s
      (if ∃ i ∈ L, s.state i = .active ∧ (cfg.keydef k).ops.cmpRecRec (s.data i) rec = 0
        then .dupKey else .ok) s := by
  induction L generalizing h scratch with
  | nil =>
      have hnull : h = nullSlot := hL
      refine runs_loop ?_
      show (machine cfg).Runs t (dupBody cfg k rec scratch h) s _ s
      rw [dupBody, if_pos hnull, if_neg (by simp)]
      exact runs_pure
  | cons a L ih =>
      obtain ⟨rfl, hne, hrest⟩ := hL
      refine runs_loop ?_
      show (machine cfg).Runs t (dupBody cfg k rec scratch h) s _ s
      rw [dupBody, if_neg hne]
      have hskip : ¬ (s.state h = .active ∧ (cfg.keydef k).ops.cmpRecRec (s.data h) rec = 0) →
          ((∃ i ∈ h :: L, s.state i = .active ∧ (cfg.keydef k).ops.cmpRecRec (s.data i) rec = 0) ↔
            ∃ i ∈ L, s.state i = .active ∧ (cfg.keydef k).ops.cmpRecRec (s.data i) rec = 0) := by
        intro hnot
        simp [hnot]
      by_cases hactive : s.state h = .active
      · refine runs_then (runs_readRow (heven h) hactive (by simp) scratch) ?_
        by_cases hcmp : (cfg.keydef k).ops.cmpRecRec (s.data h) rec = 0
        · have hex : ∃ i ∈ h :: L, s.state i = .active ∧
              (cfg.keydef k).ops.cmpRecRec (s.data i) rec = 0 :=
            ⟨h, List.mem_cons_self, hactive, hcmp⟩
          rw [if_pos hex]
          show (machine cfg).Runs t (if Rc.ok = .ok ∧ _ then _ else _) s _ s
          rw [if_pos ⟨rfl, hcmp⟩]
          exact runs_pure
        · rw [if_congr (hskip fun h0 => hcmp h0.2) rfl rfl]
          show (machine cfg).Runs t (if Rc.ok = .ok ∧ _ then _ else _) s _ s
          rw [if_neg fun h0 => hcmp h0.2]
          exact runs_access rfl (ih _ hrest)
      · refine runs_then (runs_readRow_gone scratch (Or.inl hactive)) ?_
        rw [if_congr (hskip fun h0 => hactive h0.1) rfl rfl]
        show (machine cfg).Runs t (if Rc.deleted = .ok ∧ _ then _ else _) s _ s
        rw [if_neg (by simp)]
        exact runs_access rfl (ih _ hrest)

/-- `fm_core_dup_check`: whether some ACTIVE row of the chain equals the record on
a unique key. -/
theorem runs_dupCheck {C : Index} (hC : s.Indexed C) (heven : ∀ i, s.seq i % 2 = 0)
    (k b : Nat) (rec scratch : Image n W) :
    (machine cfg).Runs t (dupCheck cfg k b rec scratch) s
      (if DuplicateIn cfg s k rec (C k b) then .dupKey else .ok) s := by
  unfold dupCheck
  by_cases hu : (cfg.keydef k).unique = true ∧ (cfg.keydef k).ops.hasNullPart rec = false
  · rw [if_pos (by simp [hu.1, hu.2])]
    have hcond : DuplicateIn cfg s k rec (C k b) ↔
        ∃ i ∈ C k b, s.state i = .active ∧ (cfg.keydef k).ops.cmpRecRec (s.data i) rec = 0 := by
      simp [DuplicateIn, hu.1, hu.2]
    rw [if_congr hcond rfl rfl]
    exact runs_access rfl (runs_dupWalk cfg t heven k rec scratch (hC k b))
  · have hcond : ¬ ((cfg.keydef k).unique && !(cfg.keydef k).ops.hasNullPart rec) = true := by
      simpa using hu
    rw [if_neg hcond, if_neg (by
      rintro ⟨h1, h2, -⟩
      exact hu ⟨h1, h2⟩)]
    exact runs_pure

end FastMem
