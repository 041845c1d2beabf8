import FastMem.SeqHandler

/-!
# Index scans through the handler

`index_read_map` followed by `index_next` until the end of the rows.  `index_next` takes
the key it continues with from the handle, where `fm_find_key` has saved it, but only
for keys that are not unique or have a nullable part.  The flag that would tell a
nullable part is masked out when the table is created, so for a unique key nothing is
saved, and `index_next` continues with whatever key an earlier lookup has left there.
A unique key may hold many rows with a NULL in it.

The scan is exact for every key that is not unique.  For a unique one it is exact only
if, behind the row it has found, the left-over key happens to select the same rows.
-/

namespace FastMem

open Conc

variable {n : Nat} {W PK : Type} {tab : TableCfg n W PK} {t : Nat} {s s' : Share n W} {C : Index}
  {F : List Int} {h : Handler n W PK} {k : Nat} {pk : PK}

/-- `HA_NOSAME`. -/
def haNosame : Nat := 1

/-- `HA_AUTO_KEY`. -/
def haAutoKey : Nat := 16

/-- `HA_NULL_PART_KEY`. -/
def haNullPartKey : Nat := 64

/-- `HA_NULL_ARE_EQUAL`. -/
def haNullAreEqual : Nat := 2048

/-- The flag of a key that `fm_prepare_create_info` stores: `flags` are those of the
server's key, and `auto` says whether it is the one of the auto-increment column. -/
def keydefFlag (flags : Nat) (auto : Bool) : Nat :=
  if auto then flags &&& (haNosame ||| haNullAreEqual) ||| haAutoKey
  else flags &&& (haNosame ||| haNullAreEqual)

/-- The keys of the table are as `fm_prepare_create_info` builds them from the server's
and `fm_key_ops_init` wires them. -/
structure Built (tab : TableCfg n W PK) (flags : Nat → Nat) (auto : Nat → Bool) : Prop where
  unique : ∀ k, (tab.keydef k).unique = decide (keydefFlag (flags k) (auto k) &&& haNosame ≠ 0)
  nullPartKey : ∀ k,
    tab.nullPartKey k = decide (keydefFlag (flags k) (auto k) &&& haNullPartKey ≠ 0)

/-- No key of a table is known to have a nullable part. -/
theorem Built.nullPartKey_eq {flags : Nat → Nat} {auto : Nat → Bool}
    (h : Built tab flags auto) (k : Nat) : tab.nullPartKey k = false := by
  have hmask : flags k &&& (haNosame ||| haNullAreEqual) &&& haNullPartKey = 0 := by
    rw [Nat.and_assoc]
    exact Nat.and_zero _
  have hzero : keydefFlag (flags k) (auto k) &&& haNullPartKey = 0 := by
    unfold keydefFlag
    cases auto k
    · exact hmask
    · show (flags k &&& (haNosame ||| haNullAreEqual) ||| haAutoKey) &&& haNullPartKey = 0
      rw [Nat.and_or_distrib_right, hmask]
      rfl
  rw [h.nullPartKey k, hzero]
  rfl

/-- One call of an index scan: `index_read_map` first, and `index_next` once it has
started. -/
def indexCall (tab : TableCfg n W PK) (k : Nat) (pk : PK) (started : Bool) (buf : Image n W)
    (h : Handler n W PK) : Core n W PK (HandlerOut n W × Handler n W PK) :=
  if started then indexNext tab buf h else indexRead tab k pk buf h

/-- The slot and the row that a call of an index scan returns, unless it is an error. -/
def indexMore (r : HandlerOut n W × Handler n W PK) :
    Option ((Int × Image n W) × Bool × Image n W × Handler n W PK) :=
  match r.1.err, r.1.buf with
  | none, some img => some ((r.2.file.currentSlot, img), true, img, r.2)
  | _, _ => none

/-- The scan of key `k` for `pk` on handle `h` returns the rows, until an error ends it. -/
def IndexScan (tab : TableCfg n W PK) (t k : Nat) (pk : PK) (c : Bool × Image n W × Handler n W PK)
    (s : Share n W) (rows : List (Int × Image n W)) (s' : Share n W) : Prop :=
  (machine tab.toShareCfg).Collects t (fun c => indexCall tab k pk c.1 c.2.1 c.2.2)
    indexMore c s rows s'

/-- The key that `index_next` will continue with once `fm_find_key` has found a row. -/
def Info.keptKey (tab : TableCfg n W PK) (info : Info n W PK) (k : Nat) (pk : PK) : PK :=
  if !((tab.keydef k).unique && !tab.nullPartKey k) then pk else info.lastkey

section

variable (hC : s.Indexed C) (heven : ∀ i, s.seq i % 2 = 0)
  (hbucket : ∀ k b, s.owner (.bucket k b) = none)

include hC heven hbucket

/-- Once a row has been found, the scan returns what the saved key selects behind it. -/
theorem indexScan_started (pk : PK) {lk : PK} (hinx : h.file.lastinx = k)
    (hkey : h.file.lastkey = lk) (buf : Image n W) :
    ∃ s', IndexScan tab t k pk (true, buf, h) (s.withRows t h)
      (((behind h.file.currentSlot (C k (tab.packedBucket k lk))).filter
        (Matches tab.toShareCfg s k lk ·)).map s.pair) s' := by
  obtain ⟨s', hscan, -⟩ : ∃ s', IndexScan tab t k pk (true, buf, h) (s.withRows t h)
      (((behind h.file.currentSlot (C k (tab.packedBucket k lk))).filter
        (Matches tab.toShareCfg s k lk ·)).map s.pair) s' ∧ True := by
    -- before a cursor are the matches of the saved key behind its current slot
    apply Machine.Collects.of_list (fun c s₁ L => c.1 = true ∧ s₁ = s.withRows t c.2.2 ∧
      c.2.2.file.lastinx = (k : Int) ∧ c.2.2.file.lastkey = lk ∧
      L = ((behind c.2.2.file.currentSlot (C k (tab.packedBucket k lk))).filter
        (Matches tab.toShareCfg s k lk ·)).map s.pair) (fun _ => True)
    · rintro ⟨started, buf, h⟩ s₁ ⟨hstarted, rfl, hinx, rfl, hL⟩
      cases hstarted
      have hempty := List.map_eq_nil_iff.mp hL.symm
      have hfind := List.find?_eq_none.mpr (List.filter_eq_nil_iff.mp hempty)
      obtain ⟨out, h', hruns, herr⟩ := runs_indexNext_none (t := t) hC heven hbucket hinx hfind buf
      refine ⟨(out, h'), _, hruns, ?_, trivial⟩
      simp [indexMore, herr]
    · rintro ⟨started, buf, h⟩ s₁ x L ⟨hstarted, rfl, hinx, rfl, hL⟩
      cases hstarted
      obtain ⟨i, rest, hfilter, rfl, rfl⟩ := List.map_eq_cons_iff.mp hL.symm
      obtain ⟨hfind, hrest⟩ := filter_behind (hC k _).nodup (behind_suffix _ _) hfilter
      have hruns := runs_indexNext (t := t) hC heven hbucket hinx hfind buf
      refine ⟨_, (true, s.data i, h.moved (h.file.atNext k h.file.lastkey i (s.gen i))), _, hruns,
        ?_, rfl, rfl, ?_, ?_, ?_⟩
      · simp [indexMore, Info.atNext, Share.pair]
      · simp [Info.atNext]
      · simp [Info.atNext]
      · rw [← hrest]
        simp [Info.atNext]
    · exact ⟨rfl, rfl, hinx, hkey, rfl⟩
  exact ⟨s', hscan⟩

/-- What a scan returns: nothing if no row of the key's bucket matches, and else the first
match and what the saved key selects behind it. -/
theorem indexScan_rows (pk : PK) (buf : Image n W) :
    ∃ s', IndexScan tab t k pk (false, buf, h) (s.withRows t h)
      (match (C k (tab.packedBucket k pk)).find? (Matches tab.toShareCfg s k pk ·) with
        | none => []
        | some i => s.pair i ::
          ((behind i (C k (tab.packedBucket k (h.file.keptKey tab k pk)))).filter
            (Matches tab.toShareCfg s k (h.file.keptKey tab k pk) ·)).map s.pair) s' := by
  cases hfind : (C k (tab.packedBucket k pk)).find? (Matches tab.toShareCfg s k pk ·) with
  | none =>
      obtain ⟨out, h', hruns, herr⟩ :=
        runs_indexRead_none (t := t) (h := h) hC heven hbucket hfind buf
      refine ⟨_, .stop hruns ?_⟩
      simp [indexMore, herr]
  | some i =>
      have hruns := runs_indexRead (t := t) (h := h) hC heven hbucket hfind buf
      have hslot : (h.moved (h.file.atKey tab k pk i (s.gen i))).file.currentSlot = i := by
        simp [Info.atKey]
      have hinx : (h.moved (h.file.atKey tab k pk i (s.gen i))).file.lastinx = k := by
        simp [Info.atKey]
      have hkey : (h.moved (h.file.atKey tab k pk i (s.gen i))).file.lastkey =
          h.file.keptKey tab k pk := by
        rw [moved_file]
        rfl
      obtain ⟨s', hscan⟩ :=
        indexScan_started (t := t) (s := s) hC heven hbucket pk hinx hkey (s.data i)
      rw [hslot] at hscan
      refine ⟨s', .next hruns ?_ hscan⟩
      simp [indexMore, Share.pair, Info.atKey]

end

/-- The scan returns exactly the ACTIVE rows that equal the search key, each once. -/
def ScanExact (tab : TableCfg n W PK) (t k : Nat) (pk : PK) (buf : Image n W) (h : Handler n W PK)
    (s : Share n W) : Prop :=
  ∃ rows s', IndexScan tab t k pk (false, buf, h) s rows s' ∧ rows.Nodup ∧
    ∀ p : Int × Image n W, p ∈ rows ↔ Matches tab.toShareCfg s k pk p.1 ∧ p.2 = s.data p.1

/-- Every ACTIVE row that equals the search key hashes to its bucket. -/
def BucketAgrees (tab : TableCfg n W PK) (s : Share n W) (k : Nat) (pk : PK) : Prop :=
  ∀ i, Matches tab.toShareCfg s k pk i → tab.keyBucket k (s.data i) = tab.packedBucket k pk

/-- Behind the first match in the bucket of the search key, the rows that equal another
key of that bucket are the rows that equal the search key. -/
def SelectsSame (tab : TableCfg n W PK) (s : Share n W) (k : Nat) (pk lk : PK) : Prop :=
  ∀ L, IsChain nullSlot (s.next k) (s.head k (tab.packedBucket k pk)) L →
    ∀ i, L.find? (Matches tab.toShareCfg s k pk ·) = some i → ∀ j ∈ behind i L,
      (Matches tab.toShareCfg s k pk j ↔
        tab.packedBucket k lk = tab.packedBucket k pk ∧ Matches tab.toShareCfg s k lk j)

/-- A key selects nothing behind a row of another bucket. -/
theorem Consistent.mem_behind {cfg : ShareCfg n W PK} {out : Set Int}
    (hcons : Consistent cfg s C F out) {b b' : Nat} {i j : Int} (hi : i ∈ C k b) : j ∈ behind i
    (C k b') ↔ b' = b ∧ j ∈ behind i (C k b) := by
  constructor
  · intro hj
    have hmem : i ∈ C k b' := by
      by_contra hnot
      rw [behind_of_notMem hnot] at hj
      cases hj
    obtain rfl := hcons.index_disjoint k b' b i hmem hi
    exact ⟨rfl, hj⟩
  · rintro ⟨rfl, hj⟩
    exact hj

/-- What lies behind a slot in its chain is not the slot itself. -/
theorem notMem_behind {L : List Int} (hL : L.Nodup) (i : Int) : i ∉ behind i L := by
  by_cases hi : i ∈ L
  · obtain ⟨pre, post, rfl⟩ := List.append_of_mem hi
    have hnot := List.nodup_append.mp hL
    rw [behind_append fun hmem => hnot.2.2 i hmem i List.mem_cons_self rfl]
    exact (List.nodup_cons.mp hnot.2.1).1
  · rw [behind_of_notMem hi]
    exact List.not_mem_nil

/-- The matches of a chain are the first one and those behind it. -/
theorem mem_iff_behind {L : List Int} (hL : L.Nodup) {p : Int → Prop} [DecidablePred p] {i : Int}
    (hfind : L.find? (p ·) = some i) {j : Int} (hj : p j) : j ∈ L ↔ j = i ∨ j ∈ behind i L := by
  have hi : i ∈ L := List.mem_of_find?_eq_some hfind
  constructor
  · intro hmem
    obtain ⟨hpi, pre, post, rfl, hpre⟩ := List.find?_eq_some_iff_append.mp hfind
    have hnot : i ∉ pre := fun hin => by simpa [hpi] using hpre i hin
    rw [behind_append hnot]
    rcases List.mem_append.mp hmem with hin | hin
    · have := hpre j hin
      simp [hj] at this
    · rcases List.mem_cons.mp hin with rfl | hin
      · exact Or.inl rfl
      · exact Or.inr hin
  · rintro (rfl | hmem)
    · exact hi
    · exact (behind_suffix i L).subset hmem

/-- A scan is exact if what it returns are the matches: there is no other scan. -/
theorem scanExact_iff_of_scan (rows : List Int) {s' : Share n W}
    (hrows : IndexScan tab t k pk (false, buf, h) s (rows.map s.pair) s') (hnodup : rows.Nodup) :
    ScanExact tab t k pk buf h s ↔ ∀ i, i ∈ rows ↔ Matches tab.toShareCfg s k pk i := by
  constructor
  · rintro ⟨rows', s'', hscan', -, hspec⟩
    obtain ⟨rfl, -⟩ := hrows.det hscan'
    intro i
    have := hspec (s.pair i)
    rw [mem_map_pair] at this
    simpa [Share.pair] using this
  · intro hspec
    refine ⟨_, _, hrows, nodup_map_pair hnodup, fun p => ?_⟩
    rw [mem_map_pair, hspec]

/-- A match is in the chain of the search key if and only if it is in its bucket. -/
theorem Consistent.match_mem_iff (hcons : Consistent tab.toShareCfg s C F ∅) (hk : k < tab.keys)
    {i : Int} (hi : Matches tab.toShareCfg s k pk i) :
    i ∈ C k (tab.packedBucket k pk) ↔ tab.keyBucket k (s.data i) = tab.packedBucket k pk := by
  rw [hcons.index_mem k hk]
  exact ⟨fun h => h.2, fun h => ⟨hi.1, h⟩⟩

/-- The rows a scan returns after the first match `i`, when it continues with the key
`lk`. -/
def continued (tab : TableCfg n W PK) (s : Share n W) (C : Index) (k : Nat) (i : Int) (lk : PK) :
    List Int :=
  (behind i (C k (tab.packedBucket k lk))).filter (Matches tab.toShareCfg s k lk ·)

/-- They lie behind the first match, in the chain of the search key. -/
theorem Consistent.mem_continued (hcons : Consistent tab.toShareCfg s C F ∅) {i j : Int} {lk : PK}
    (hi : i ∈ C k (tab.packedBucket k pk)) :
    j ∈ continued tab s C k i lk ↔ j ∈ behind i (C k (tab.packedBucket k pk)) ∧
      (tab.packedBucket k lk = tab.packedBucket k pk ∧ Matches tab.toShareCfg s k lk j) := by
  rw [continued, List.mem_filter, hcons.mem_behind hi, decide_eq_true_eq]
  tauto

/-- Each is returned once, the first match included. -/
theorem Consistent.nodup_continued (hcons : Consistent tab.toShareCfg s C F ∅) {i : Int} {lk : PK}
    (hi : i ∈ C k (tab.packedBucket k pk)) : (i :: continued tab s C k i lk).Nodup := by
  refine List.nodup_cons.mpr ⟨fun hin => ?_, ?_⟩
  · exact notMem_behind (hcons.index k _).nodup i ((hcons.mem_continued hi).mp hin).1
  · exact ((hcons.index k _).nodup.sublist (behind_suffix _ _).sublist).filter _

/-- Without a match in the chain, no match may be elsewhere. -/
theorem Consistent.exact_none_iff (hcons : Consistent tab.toShareCfg s C F ∅) (hk : k < tab.keys)
    (lk : PK)
    (hfind : (C k (tab.packedBucket k pk)).find? (Matches tab.toShareCfg s k pk ·) = none) :
    (∀ i, i ∈ ([] : List Int) ↔ Matches tab.toShareCfg s k pk i) ↔
      BucketAgrees tab s k pk ∧ SelectsSame tab s k pk lk := by
  constructor
  · intro hspec
    refine ⟨fun i hi => absurd ((hspec i).mpr hi) List.not_mem_nil, fun L hL i hi => ?_⟩
    rw [hL.unique (hcons.index k _), hfind] at hi
    cases hi
  · intro hcond i
    refine ⟨fun hi => absurd hi List.not_mem_nil, fun hi => ?_⟩
    have hno : ∀ i ∈ C k (tab.packedBucket k pk), ¬ Matches tab.toShareCfg s k pk i := by
      simpa using List.find?_eq_none.mp hfind
    exact absurd hi (hno i ((hcons.match_mem_iff hk hi).mpr (hcond.1 i hi)))

/-- With a first match `i`, the rest of the matches must be what `lk` selects. -/
theorem Consistent.exact_some_iff (hcons : Consistent tab.toShareCfg s C F ∅) (hk : k < tab.keys)
    (lk : PK) {i : Int}
    (hfind : (C k (tab.packedBucket k pk)).find? (Matches tab.toShareCfg s k pk ·) = some i) :
    (∀ j, j ∈ i :: continued tab s C k i lk ↔ Matches tab.toShareCfg s k pk j) ↔
      BucketAgrees tab s k pk ∧ SelectsSame tab s k pk lk := by
  have hchain := hcons.index k (tab.packedBucket k pk)
  have hi : i ∈ C k (tab.packedBucket k pk) := List.mem_of_find?_eq_some hfind
  have himatch : Matches tab.toShareCfg s k pk i := by simpa using List.find?_some hfind
  constructor
  · intro hspec
    constructor
    · intro j hj
      refine (hcons.match_mem_iff hk hj).mp ?_
      rcases List.mem_cons.mp ((hspec j).mpr hj) with rfl | hin
      · exact hi
      · exact (behind_suffix _ _).subset ((hcons.mem_continued hi).mp hin).1
    · intro L hL i' hi' j hj
      obtain rfl := hL.unique hchain
      rw [hfind] at hi'
      cases hi'
      have hne : j ≠ i := fun heq => notMem_behind hchain.nodup i (heq ▸ hj)
      rw [← hspec j, List.mem_cons, hcons.mem_continued hi]
      tauto
  · intro hcond j
    have hsel := hcond.2 _ hchain i hfind
    rw [List.mem_cons, hcons.mem_continued hi]
    constructor
    · rintro (rfl | ⟨hj, hlk⟩)
      · exact himatch
      · exact (hsel j hj).mpr hlk
    · intro hj
      have hmem := (hcons.match_mem_iff hk hj).mpr (hcond.1 j hj)
      rcases (mem_iff_behind hchain.nodup hfind hj).mp hmem with rfl | hin
      · exact Or.inl rfl
      · exact Or.inr ⟨hin, (hsel j hin).mp hj⟩

/-- A scan that continues with the key `lk` is exact if and only if all matches are in
their bucket and `lk` selects the same rows. -/
theorem Consistent.scanExact_iff (hcons : Consistent tab.toShareCfg s C F ∅)
    (hbucket : ∀ k b, s.owner (.bucket k b) = none) (hsole : SoleHolder t s h) (hk : k < tab.keys)
    (buf : Image n W) :
    ScanExact tab t k pk buf h s ↔
      BucketAgrees tab s k pk ∧ SelectsSame tab s k pk (h.file.keptKey tab k pk) := by
  obtain ⟨s', hscan⟩ := indexScan_rows (t := t) (h := h) (k := k) hcons.index hcons.seq_even hbucket
    pk buf
  rw [hsole.eq] at hscan
  cases hfind : (C k (tab.packedBucket k pk)).find? (Matches tab.toShareCfg s k pk ·) with
  | none =>
      rw [hfind] at hscan
      rw [scanExact_iff_of_scan [] hscan List.nodup_nil]
      exact hcons.exact_none_iff hk _ hfind
  | some i =>
      rw [hfind] at hscan
      have hi : i ∈ C k (tab.packedBucket k pk) := List.mem_of_find?_eq_some hfind
      rw [scanExact_iff_of_scan (i :: continued tab s C k i _) hscan (hcons.nodup_continued hi)]
      exact hcons.exact_some_iff hk _ hfind

/-- **When an index scan is exact.**  On every table as it is created, in every state
that sequential writes lead to and whatever the handle has done before, `index_read_map`
followed by `index_next` returns exactly the ACTIVE rows that equal the search key, each
once, if and only if all of them hash to the search key's bucket and the key is not
unique, or behind the first match the key left over in the handle selects the same
rows. -/
theorem index_scan_exact_iff (tab : TableCfg n W PK) (flags : Nat → Nat) (auto : Nat → Bool)
    (hbuilt : Built tab flags auto) (hhash : HashRespects tab.toShareCfg) (hkeys : tab.keys ≤ 64)
    (t : Nat) (data : Int → Image n W) (s : Share n W) (hs : CallSeq tab.toShareCfg t data s)
    (h : Handler n W PK) (hsole : SoleHolder t s h) (k : Nat) (hk : k < tab.keys) (pk : PK)
    (buf : Image n W) :
    ScanExact tab t k pk buf h s ↔
      BucketAgrees tab s k pk ∧
        ((tab.keydef k).unique = false ∨ SelectsSame tab s k pk h.file.lastkey) := by
  have hquiet := hs.quiet hhash hkeys
  obtain ⟨C, F, hcons⟩ := hquiet.1
  rw [hcons.scanExact_iff hquiet.bucket hsole hk]
  unfold Info.keptKey
  rw [hbuilt.nullPartKey_eq k]
  cases hunique : (tab.keydef k).unique with
  | false =>
      have hsame : SelectsSame tab s k pk pk := fun L hL i hi j hj => by simp
      simp [hsame]
  | true => simp

/-- An insert into a share that calls have led to. -/
theorem CallSeq.insert {cfg : ShareCfg n W PK} {data : Int → Image n W} (hhash : HashRespects cfg)
    (hkeys : cfg.keys ≤ 64) (hs : CallSeq cfg t data s) {rec scratch : Image n W} {r : WriteResult}
    (hruns : (machine cfg).Runs t (insertRow cfg rec scratch) s r s') :
    CallSeq cfg t data s' ∧ s'.owner = s.owner := by
  have hquiet := hs.quiet hhash hkeys
  obtain ⟨C, F, hcons⟩ := hquiet.1
  obtain ⟨r', s₁, C', F', hruns', -, howner, -⟩ :=
    runs_insertRow hcons t hquiet.mutex hquiet.bucket rec scratch
  obtain ⟨rfl, rfl⟩ := hruns'.det hruns
  have hcode : (machine cfg).Runs t (CoreOp.code cfg (.insertRow rec scratch) Session.empty) s
      (.write r, Session.empty) s' := runs_then hruns runs_pure
  exact ⟨.call hs (by exact trivial) hcode, howner⟩

/-- A handler that holds no row lock, on a share on which nobody holds one. -/
theorem soleHolder_of_unlocked (hlocked : h.rowLocked = false) (howner : ∀ l, s.owner l = none) :
    SoleHolder t s h := by
  intro i
  rw [hlocked, if_neg (by simp)]
  exact howner (.row i)

/-- No lock of a fresh share is owned. -/
theorem owner_fresh (data : Int → Image n W) (l : Lock) : (Share.fresh data).owner l = none := by
  cases l <;> rfl

/-- A table of one-word rows with one key on the word, in which 0 stands for NULL. -/
def nullableTable (unique : Bool) : TableCfg 1 Nat Nat where
  toShareCfg :=
    { wordTable 1 with
      keydef := fun _ =>
        { (wordTable 1).keydef 0 with
          unique := unique
          ops := { ((wordTable 1).keydef 0).ops with hasNullPart := fun r => wordOf r = 0 } } }
  nullPartKey := fun _ => false
  autoValue := none
  makeKey := fun _ _ r => wordOf r

/-- In the table with a nullable key equal keys have one bucket. -/
theorem hashRespects_nullableTable (unique : Bool) : HashRespects
    (nullableTable unique).toShareCfg := by
  intro k _ a b hcmp
  have hcmp' : (a 0 : Int) - b 0 = 0 := hcmp
  show a 0 = b 0
  omega

/-- The server's flags of a key with a nullable part. -/
theorem built_nullableTable (unique : Bool) :
    Built (nullableTable unique)
      (fun _ => if unique then haNosame ||| haNullPartKey else haNullPartKey) fun _ => false := by
  constructor
  · intro k
    cases unique <;> rfl
  · intro k
    cases unique <;> rfl

/-- Two equal rows and one more in their bucket: the scan returns the two. -/
theorem index_scan_exact_iff_equal_rows :
    ∃ s, CallSeq (nullableTable false).toShareCfg 0 (fun _ _ => 0) s ∧
      Matches (nullableTable false).toShareCfg s 0 7 0 ∧ Matches
        (nullableTable false).toShareCfg s 0 7 2 ∧
      s.state 1 = .active ∧ s.data 1 = (fun _ => 3) ∧
      (nullableTable false).keyBucket 0 (fun _ => 3) = (nullableTable false).packedBucket 0 7 ∧
      ScanExact (nullableTable false) 0 0 7 (fun _ => 0) (Handler.opened 5 fun _ => 0) s := by
  have hhash := hashRespects_nullableTable false
  have heval : (callAllowed (nullableTable false).toShareCfg 0 200
      [.insertRow (fun _ => 7) fun _ => 0,
      .insertRow (fun _ => 3) fun _ => 0, .insertRow (fun _ => 7) fun _ => 0]
        (Share.fresh fun _ _ => 0)).any (fun s =>
        decide (Matches (nullableTable false).toShareCfg s 0 7 0 ∧
          Matches (nullableTable false).toShareCfg s 0 7 2 ∧
          s.state 1 = .active ∧ s.data 1 = fun _ => 3)) = true := by
    decide +kernel
  obtain ⟨s, hops, hrows⟩ := (Option.any_eq_true _ _).mp heval
  obtain ⟨hrow₀, hrow₂, hactive, hdata⟩ := of_decide_eq_true hrows
  have hseq := CallSeq.of_callAllowed hops
  have hfree := free_of_callAllowed hhash (by decide) (by decide) hops
  refine ⟨s, hseq, hrow₀, hrow₂, hactive, hdata, by decide, ?_⟩
  rw [index_scan_exact_iff (nullableTable false) _ _ (built_nullableTable false) hhash
    (by decide) 0 _ s hseq
    (Handler.opened 5 fun _ => 0) (soleHolder_of_unlocked rfl hfree) 0 (by decide) 7 fun _ => 0]
  refine ⟨fun i hi => ?_, Or.inl rfl⟩
  have hcmp : (s.data i 0 : Int) - (7 : Nat) = 0 := hi.2
  have hword : s.data i 0 = 7 := by omega
  show ((nullableTable false).keydef 0).bucket (s.data i 0) =
    ((nullableTable false).keydef 0).bucket 7
  rw [hword]

/-- Two rows with a NULL in the unique key: the scan for NULL returns one of them. -/
theorem index_scan_misses_null_row :
    ∃ s, CallSeq (nullableTable true).toShareCfg 0 (fun _ _ => 0) s ∧
      SoleHolder 0 s (Handler.opened 5 (fun _ => 0) : Handler 1 Nat Nat) ∧
      Built (nullableTable true) (fun _ => haNosame ||| haNullPartKey) (fun _ => false) ∧
      Matches (nullableTable true).toShareCfg s 0 0 0 ∧ Matches
        (nullableTable true).toShareCfg s 0 0 1 ∧
      ¬ ScanExact (nullableTable true) 0 0 0 (fun _ => 0) (Handler.opened 5 fun _ => 0) s := by
  have hhash := hashRespects_nullableTable true
  have heval : ((machine (nullableTable true).toShareCfg).eval 0 200
      (insertRow (nullableTable true).toShareCfg (fun _ => 0) fun _ => 0)
        (Share.fresh fun _ _ => 0)).any (fun x =>
        ((machine (nullableTable true).toShareCfg).eval 0 200
          (insertRow (nullableTable true).toShareCfg (fun _ => 0) fun _ => 0) x.2).any fun y =>
            Matches (nullableTable true).toShareCfg y.2 0 0 0 && Matches
              (nullableTable true).toShareCfg y.2 0 0 1 &&
            ((machine (nullableTable true).toShareCfg).eval 0 200
              (indexRead (nullableTable true) 0 0 (fun _ => 0) (Handler.opened 5 fun _ => 0))
                y.2).any fun z =>
                z.1.1.err = none && z.1.1.buf = some (fun _ => 0) && z.1.2.file.currentSlot = 1 &&
                ((machine (nullableTable true).toShareCfg).eval 0 200
                  (indexNext (nullableTable true) (fun _ => 0) z.1.2) z.2).any fun u =>
                    u.1.1.err = some .endOfFile) = true := by
    decide +kernel
  obtain ⟨⟨r, s₁⟩, hfirst, hcond⟩ := (Option.any_eq_true _ _).mp heval
  obtain ⟨⟨r', s⟩, hsecond, hcond⟩ := (Option.any_eq_true _ _).mp hcond
  simp only [Bool.and_eq_true, decide_eq_true_eq] at hcond
  obtain ⟨⟨hrow₀, hrow₁⟩, hcond⟩ := hcond
  obtain ⟨⟨⟨out, h₁⟩, s₂⟩, hread, hcond⟩ := (Option.any_eq_true _ _).mp hcond
  simp only [Bool.and_eq_true, decide_eq_true_eq] at hcond
  obtain ⟨⟨⟨herr, hbuf⟩, hslot⟩, hcond⟩ := hcond
  obtain ⟨⟨⟨out', h₂⟩, s₃⟩, hnext, hend⟩ := (Option.any_eq_true _ _).mp hcond
  simp only [decide_eq_true_eq] at hend
  obtain ⟨hseq₁, howner₁⟩ := CallSeq.insert hhash (by decide) .fresh (.of_eval hfirst)
  obtain ⟨hseq, howner⟩ := CallSeq.insert hhash (by decide) hseq₁ (.of_eval hsecond)
  have hfree : ∀ l, s.owner l = none := by
    rw [howner, howner₁]
    exact owner_fresh _
  have hmore : indexMore (out, h₁) = some ((1, fun _ => 0), true, fun _ => 0, h₁) := by
    simp [indexMore, herr, hbuf, hslot]
  have hstop : indexMore (out', h₂) = none := by
    simp [indexMore, hend]
  have hscan : IndexScan (nullableTable true) 0 0 0 (false, fun _ => 0,
      Handler.opened 5 fun _ => 0) s [(1, fun _ => 0)] s₃ :=
    .next (.of_eval hread) hmore (.stop (.of_eval hnext) hstop)
  refine ⟨s, hseq, soleHolder_of_unlocked rfl hfree, built_nullableTable true, hrow₀, hrow₁, ?_⟩
  rintro ⟨rows, s', hscan', -, hspec⟩
  obtain ⟨rfl, -⟩ := hscan.det hscan'
  have hmem := (hspec (0, s.data 0)).mpr ⟨hrow₀, rfl⟩
  simp at hmem

end FastMem
