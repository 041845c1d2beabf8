import FastMem.KeyFormat

/-!
# Packed keys of the server

The search keys the server builds from a record, and what `fm_hashnr` and `fm_key_cmp`
make of them.  A packed key has for each segment a null byte, if the column is
nullable, and a field of a fixed width: for a BIT column with odd bits these come first,
for a VARCHAR two length bytes stand before the field.  What a NULL or a short string
leaves of its field is not looked at, and nothing is said about it here.

`fm_hashnr` keeps in step with the segments.  `fm_key_cmp` does not: behind odd bits that
it has compared it stands one byte too far.
-/

namespace FastMem

open Bytes

variable {S : Server} {rec rec1 rec2 key : Buffer} {seg : KeySeg} {segs : List KeySeg} {pos : Nat}

/-- A string that has been limited to some characters is not limited any further. -/
theorem KeySeg.Prepared.limit_idem (hseg : seg.Prepared) {m m' : Buffer} {at₁ at₂ len num : Nat}
    (h : slice m' at₂ (min len (seg.charset.charpos (slice m at₁ len) num)) =
      slice m at₁ (min len (seg.charset.charpos (slice m at₁ len) num))) :
    min (min len (seg.charset.charpos (slice m at₁ len) num))
        (seg.charset.charpos
          (slice m' at₂ (min len (seg.charset.charpos (slice m at₁ len) num))) num) =
      min len (seg.charset.charpos (slice m at₁ len) num) := by
  obtain ⟨cs, hcs⟩ := hseg.charset
  rw [hcs] at h ⊢
  by_cases hp : cs.charpos (slice m at₁ len) num ≤ len
  · rw [Nat.min_eq_right hp] at h ⊢
    have hsame := cs.charpos_local (slice m at₁ len)
      (slice m' at₂ (cs.charpos (slice m at₁ len) num)) num (by simpa using hp) (by simp) (by
        rw [take_slice (Nat.le_refl _), take_slice hp]
        exact h)
    rw [hsame, Nat.min_self]
  · have hall : min len (cs.charpos (slice m at₁ len) num) = len := by omega
    rw [hall] at h ⊢
    rw [h, hall]

/-- Characters are counted the same in a field that begins with them. -/
theorem KeySeg.Prepared.charpos_field (hseg : seg.Prepared) {m m' : Buffer} {at₁ at₂ len num : Nat}
    (h : slice m' at₂ (min (seg.charset.charpos (slice m at₁ len) num) len) =
      slice m at₁ (min (seg.charset.charpos (slice m at₁ len) num) len)) :
    min (seg.charset.charpos (slice m' at₂ len) num) len =
      min (seg.charset.charpos (slice m at₁ len) num) len := by
  obtain ⟨cs, hcs⟩ := hseg.charset
  rw [hcs] at h ⊢
  by_cases hp : cs.charpos (slice m at₁ len) num ≤ len
  · rw [Nat.min_eq_left hp] at h ⊢
    have hsame := cs.charpos_local (slice m at₁ len) (slice m' at₂ len) num (by simpa using hp)
      (by simpa using hp) (by
        rw [take_slice hp, take_slice hp]
        exact h)
    rw [hsame, Nat.min_eq_left hp]
  · have hall : min (cs.charpos (slice m at₁ len) num) len = len := by omega
    rw [hall] at h ⊢
    rw [h, hall]

/-- The length of a VARCHAR value, limited to the characters or the bytes of the
segment. -/
def KeySeg.varLimited (seg : KeySeg) (rec : Buffer) : Nat :=
  if 1 < seg.charset.mbmaxlen then
    min (seg.varLength rec) (seg.charset.charpos
      (slice rec (seg.start + seg.bitStart) (seg.varLength rec))
      (seg.length / seg.charset.mbmaxlen))
  else min (seg.varLength rec) seg.length

/-- The width of a segment in a packed key. -/
def KeySeg.width (seg : KeySeg) : Nat :=
  (if seg.nullBit ≠ 0 then 1 else 0) + (if seg.type = .varText1 then 2 else 0) + seg.length

/-- The length of a VARCHAR value at `pos` in a packed key, as the functions on packed
keys take it. -/
def KeySeg.keyLength (seg : KeySeg) (key : Buffer) (pos : Nat) : Nat :=
  if 1 < seg.charset.mbmaxlen then
    min (uint2 key pos) (seg.charset.charpos (slice key (pos + 2) (uint2 key pos))
      (seg.length / seg.charset.mbmaxlen))
  else uint2 key pos

/-- The value of a segment that is not NULL lies at `pos`; `len` is the length of a
VARCHAR there. -/
def ValueAt (len : KeySeg → Buffer → Nat → Nat) (S : Server) (rec key : Buffer) (pos : Nat)
    (seg : KeySeg) : Prop :=
  match seg.type with
  | .text => slice key pos (seg.copied rec) = slice rec seg.start (seg.copied rec)
  | .varText1 =>
      len seg key pos = seg.varLimited rec ∧
        slice key (pos + 2) (seg.varLimited rec) =
          slice rec (seg.start + seg.bitStart) (seg.varLimited rec)
  | _ =>
      if seg.oddBits then
        key pos = seg.bits S rec ∧
          slice key (pos + 1) (seg.length - 1) = slice rec seg.start (seg.length - 1)
      else slice key pos seg.length = slice rec seg.start seg.length

/-- The segments lie one behind the other from `pos` on, each with its null byte and,
unless it is NULL, with its value. -/
def Laid (len : KeySeg → Buffer → Nat → Nat) (S : Server) (rec key : Buffer) :
    Nat → List KeySeg → Prop
  | _, [] => True
  | pos, seg :: segs =>
      (if seg.nullBit ≠ 0 then
        key pos = (if seg.isNull rec then 1 else 0) ∧
          (seg.isNull rec = false → ValueAt len S rec key (pos + 1) seg)
      else ValueAt len S rec key pos seg) ∧ Laid len S rec key (pos + seg.width) segs

/-- `key` is what the server packs from `rec`: the lengths of VARCHAR values are limited
already. -/
def Packed (S : Server) (rec key : Buffer) (segs : List KeySeg) : Prop :=
  Laid (fun _ => uint2) S rec key 0 segs

/-- The functions on packed keys find in `key` the values of `rec`, from `pos` on. -/
abbrev Readable (S : Server) (rec key : Buffer) (pos : Nat) (segs : List KeySeg) : Prop :=
  Laid KeySeg.keyLength S rec key pos segs

/-- A value with two length bytes is read as such. -/
theorem ValueAt.read (hseg : seg.Prepared) (h : ValueAt (fun _ => uint2) S rec key pos seg) :
    ValueAt KeySeg.keyLength S rec key pos seg := by
  cases htype : seg.type with
  | varText1 =>
      simp only [ValueAt, htype] at h ⊢
      obtain ⟨hlen, hslice⟩ := h
      refine ⟨?_, hslice⟩
      unfold KeySeg.keyLength
      rw [hlen]
      by_cases hmb : 1 < seg.charset.mbmaxlen
      · simp only [KeySeg.varLimited, hmb, if_true] at hslice ⊢
        exact hseg.limit_idem hslice
      · rw [if_neg hmb]
  | _ => simpa [ValueAt, htype] using h

theorem Laid.read (hsegs : ∀ seg ∈ segs, seg.Prepared)
    (h : Laid (fun _ => uint2) S rec key pos segs) : Readable S rec key pos segs := by
  induction segs generalizing pos with
  | nil => trivial
  | cons seg segs ih =>
      have hprep := hsegs seg List.mem_cons_self
      obtain ⟨hseg, hrest⟩ := h
      refine ⟨?_, ih (fun s hs => hsegs s (List.mem_cons_of_mem _ hs)) hrest⟩
      by_cases hbit : seg.nullBit ≠ 0
      · rw [if_pos hbit] at hseg ⊢
        exact ⟨hseg.1, fun hnull => (hseg.2 hnull).read hprep⟩
      · rw [if_neg hbit] at hseg ⊢
        exact hseg.read hprep

/-- A packed key is read as its record. -/
theorem Packed.readable (h : Packed S rec key segs) (hsegs : ∀ seg ∈ segs, seg.Prepared) :
    Readable S rec key 0 segs := Laid.read hsegs h

/-- A column that is not nullable is not NULL. -/
theorem KeySeg.isNull_of_not_nullable (h : seg.nullBit = 0) : seg.isNull rec = false := by
  simp [KeySeg.isNull, h]

/-- Bytes are hashed one after another. -/
theorem addBytes_cons (h : Hasher) (b : UInt8) (bs : List UInt8) :
    Hasher.addBytes S h (b :: bs) = Hasher.addBytes S (S.hashAdd h b) bs := rfl

/-- The value of a segment hashes in a packed key as in the record. -/
theorem hashValue_read (hseg : seg.Prepared) (hnull : seg.isNull rec = false)
    (hval : ValueAt KeySeg.keyLength S rec key pos seg) (h : Hasher) :
    hashValue S key h pos (pos + seg.length) seg =
      (recHashSeg S rec h seg, pos + seg.length + if seg.type = .varText1 then 2 else 0) := by
  unfold recHashSeg
  simp only [hnull, Bool.false_eq_true, if_false]
  rcases hseg.type with htype | htype | htype | htype
  · -- TEXT: the characters are those of the record
    simp only [ValueAt, htype, KeySeg.copied] at hval
    by_cases hmb : 1 < seg.charset.mbmaxlen
    · simp only [hmb, if_true] at hval
      simp only [hashValue, htype, hmb, if_true]
      rw [Nat.min_comm, hseg.charpos_field hval, hval]
      simp
    · simp only [hmb, if_false] at hval
      simp [hashValue, htype, hmb, hval]
  · simp only [ValueAt, htype, KeySeg.keyLength, KeySeg.varLimited] at hval
    obtain ⟨hlen, hslice⟩ := hval
    simp only [hashValue, htype, if_true, hlen, hslice]
  all_goals
    simp only [ValueAt, htype] at hval
    simp only [hashValue, htype, Nat.add_sub_cancel_left]
    by_cases hodd : seg.oddBits = true
    · simp only [hodd, if_true] at hval ⊢
      have hbit : seg.type = .bit ∧ seg.bitLength ≠ 0 := by simpa [KeySeg.oddBits] using hodd
      have hpos := hseg.odd hbit.1 hbit.2
      have hsucc : slice key pos seg.length = key pos :: slice key (pos + 1) (seg.length - 1) := by
        rw [← slice_succ]
        congr 1
        omega
      rw [hsucc, addBytes_cons, hval.1, hval.2]
      simp
    · simp only [hodd, Bool.false_eq_true, if_false] at hval ⊢
      rw [hval]
      simp

/-- One round of `fm_hashnr` adds to the hash what the record adds, and steps over the
segment. -/
theorem hashSeg_read (hseg : seg.Prepared) (hread : Readable S rec key pos (seg :: segs))
    (h : Hasher) : hashSeg S key (h, pos) seg = (recHashSeg S rec h seg, pos + seg.width) := by
  have hread := hread.1
  unfold hashSeg KeySeg.width
  by_cases hbit : seg.nullBit = 0
  · rw [if_neg (by simpa using hbit)] at hread
    have hval := hashValue_read hseg (KeySeg.isNull_of_not_nullable hbit) hread h
    simp only [hbit, ne_eq, not_true_eq_false, if_false]
    rw [hval]
    congr 1
    omega
  · rw [if_pos hbit] at hread
    obtain ⟨hbyte, hval⟩ := hread
    simp only [ne_eq, hbit, not_false_eq_true, if_true]
    cases hnull : seg.isNull rec with
    | true =>
        rw [hnull, if_pos rfl] at hbyte
        have hset : key pos ≠ 0 := by
          rw [hbyte]
          decide
        simp only [hset, not_false_eq_true, if_true, recHashSeg, hnull]
        congr 1
        split <;> omega
    | false =>
        rw [hnull, if_neg (by simp)] at hbyte
        have hval := hashValue_read hseg hnull (hval hnull) h
        simp only [hbyte, not_true_eq_false, if_false]
        rw [show pos + seg.length + 1 = pos + 1 + seg.length by omega, hval]
        congr 1
        omega

/-- A key hashes as the record it is read as. -/
theorem foldl_hashSeg_read (hsegs : ∀ seg ∈ segs, seg.Prepared)
    (hread : Readable S rec key pos segs)
    (h : Hasher) : (segs.foldl (hashSeg S key) (h, pos)).1 = segs.foldl (recHashSeg S rec) h := by
  induction segs generalizing pos h with
  | nil => rfl
  | cons seg segs ih =>
      rw [List.foldl_cons, List.foldl_cons, hashSeg_read (hsegs seg List.mem_cons_self) hread]
      exact ih (fun s hs => hsegs s (List.mem_cons_of_mem _ hs)) hread.2 _

/-- The segments of a prepared key are prepared. -/
theorem prepareKey_prepared (S : Server) (parts : List KeyPart) (noSame : Bool) :
    ∀ seg ∈ (prepareKey S parts noSame).seg, seg.Prepared := by
  intro seg hseg
  obtain ⟨p, -, rfl⟩ := List.mem_map.mp hseg
  exact p.toSeg_prepared S

/-- **A packed key hashes like the record it was packed from**, for every key that
`fm_prepare_create_info` builds, whatever fills the unused parts of the packed key. -/
theorem packed_key_hashes_like_record (S : Server) (parts : List KeyPart) (noSame : Bool)
    (rec key : Buffer) (hpack : Packed S rec key (prepareKey S parts noSame).seg) :
    fmHashnr S (prepareKey S parts noSame) key = fmRecHashnr S (prepareKey S parts noSame) rec := by
  have hprep := prepareKey_prepared S parts noSame
  unfold fmHashnr fmRecHashnr
  rw [foldl_hashSeg_read hprep (hpack.readable hprep)]

/-- A VARCHAR with one length byte, a BIT column with an odd bit and a NULL, packed with
junk in what they leave unused. -/
theorem packed_key_hashes_like_record_short_string :
    let parts :=
  [byteColumn .varText1 false 1 3 0 (by omega), byteColumn .bit false 5 2 1 (by omega),
      byteColumn .varText2 true 6 2 0 (by omega)]
    fmHashnr byteServer (prepareKey byteServer parts true)
        (bufferOf [1, 0, 65, 9, 9, 1, 77, 1, 8, 8, 8, 8]) =
      fmRecHashnr byteServer (prepareKey byteServer parts true)
      (bufferOf [129, 1, 65, 0, 0, 77, 0, 0]) := by
  intro parts
  apply packed_key_hashes_like_record
  exact ⟨⟨rfl, rfl⟩, ⟨rfl, rfl⟩, ⟨rfl, fun h => by cases h⟩, trivial⟩

/-- Two records that agree on whether a segment is NULL agree on its null bit. -/
theorem nullOf_eq (hseg : seg.Prepared) (hbit : seg.nullBit ≠ 0)
    (h : seg.isNull rec1 = seg.isNull rec2) : seg.nullOf rec1 = seg.nullOf rec2 := by
  have hval : ∀ rec, seg.nullOf rec = if seg.isNull rec then seg.nullBit else 0 := by
    intro rec
    rcases hseg.null (rec seg.nullPos) with hzero | hone
    · have hzero : seg.nullOf rec = 0 := hzero
      simp [KeySeg.isNull, hzero]
    · have hone : seg.nullOf rec = seg.nullBit := hone
      simp [KeySeg.isNull, hone, hbit]
  rw [hval, hval, h]

/-- Where two records differ on whether a segment is NULL, they differ. -/
theorem differs_of_isNull (h : seg.isNull rec1 ≠ seg.isNull rec2) :
    recSegDiffers S seg rec1 rec2 = true := by
  have hbit : seg.nullBit ≠ 0 := by
    intro hzero
    simp [KeySeg.isNull, hzero] at h
  have hnull : seg.nullOf rec1 ≠ seg.nullOf rec2 := by
    intro heq
    simp [KeySeg.isNull, heq] at h
  simp [recSegDiffers, hbit, hnull]

/-- Two NULLs do not differ. -/
theorem not_differs_of_null (hseg : seg.Prepared) (h₁ : seg.isNull rec1 = true)
    (h₂ : seg.isNull rec2 = true) : recSegDiffers S seg rec1 rec2 = false := by
  have hbit : seg.nullBit ≠ 0 := by
    intro hzero
    simp [KeySeg.isNull, hzero] at h₁
  have hnull := nullOf_eq hseg hbit (h₁.trans h₂.symm)
  simp [recSegDiffers, hnull, h₁]

/-- Two values that are not NULL are compared. -/
theorem not_null_differ (hseg : seg.Prepared) (h₁ : seg.isNull rec1 = false)
    (h₂ : seg.isNull rec2 = false) :
    ¬ (seg.nullBit ≠ 0 ∧ seg.nullOf rec1 ≠ seg.nullOf rec2) := by
  intro hdiff
  exact hdiff.2 (nullOf_eq hseg hdiff.1 (h₁.trans h₂.symm))

/-- `fm_key_cmp` compares the value of a packed segment as `fm_rec_key_cmp` compares it
in the record; behind odd bits the pointer has moved on by one. -/
theorem keyCmpValue_read (hseg : seg.Prepared) (h₁ : seg.isNull rec1 = false)
    (h₂ : seg.isNull rec2 = false) (hval : ValueAt KeySeg.keyLength S rec2 key pos seg) :
    keyCmpValue S rec1 key pos seg =
      if recSegDiffers S seg rec1 rec2 then none
      else some (pos + (if seg.type = .varText1 then 2 else 0) + if seg.oddBits then 1 else 0) := by
  have hdiff := not_null_differ hseg h₁ h₂
  rcases hseg.type with htype | htype | htype | htype
  · simp only [ValueAt, htype, KeySeg.copied] at hval
    have hodd : seg.oddBits = false := by simp [KeySeg.oddBits, htype]
    by_cases hmb : 1 < seg.charset.mbmaxlen
    · simp only [hmb, if_true] at hval
      simp only [keyCmpValue, recSegDiffers, htype, hmb, hdiff, h₁, hodd, if_true, if_false,
        Bool.false_eq_true]
      rw [hseg.charpos_field hval, hval]
      simp
    · simp only [hmb, if_false] at hval
      simp [keyCmpValue, recSegDiffers, htype, hmb, hdiff, h₁, hodd, hval]
  · simp only [ValueAt, htype, KeySeg.keyLength, KeySeg.varLimited] at hval
    obtain ⟨hlen, hslice⟩ := hval
    have hodd : seg.oddBits = false := by simp [KeySeg.oddBits, htype]
    have hpack : (if seg.bitStart = 1 then 1 else 2) = seg.bitStart := by
      rcases hseg.pack htype with hone | htwo
      · rw [if_pos hone, hone]
      · rw [if_neg (by omega), htwo]
    by_cases hmb : 1 < seg.charset.mbmaxlen
    · simp only [hmb, if_true] at hlen hslice
      simp only [keyCmpValue, recSegDiffers, htype, hmb, hdiff, h₁, hodd, hpack, if_true, if_false,
        Bool.false_eq_true, hlen]
      rw [hslice, Nat.min_comm (seg.varLength rec1), Nat.min_comm (seg.varLength rec2)]
      simp
    · simp only [hmb, if_false] at hlen hslice
      simp only [keyCmpValue, recSegDiffers, htype, hmb, hdiff, h₁, hodd, hpack, if_true, if_false,
        Bool.false_eq_true, hlen, hslice]
      simp
  all_goals
    simp only [ValueAt, htype] at hval
    simp only [keyCmpValue, recSegDiffers, htype, hdiff, h₁, if_false, Bool.false_eq_true]
    by_cases hodd : seg.oddBits = true
    · simp only [hodd, if_true] at hval ⊢
      rw [hval.1, hval.2]
      by_cases hbits : seg.bits S rec1 = seg.bits S rec2 <;> simp [hbits]
    · simp only [hodd, Bool.false_eq_true, if_false] at hval ⊢
      rw [hval]
      simp

/-- How far `fm_key_cmp` has moved too far behind a segment. -/
def KeySeg.drift (seg : KeySeg) (rec : Buffer) : Nat :=
  if seg.oddBits = true ∧ seg.isNull rec = false then 1 else 0

/-- One round of `fm_key_cmp`, with the step of the loop. -/
theorem keyCmpSeg_read (hseg : seg.Prepared) (hread : Readable S rec2 key pos (seg :: segs)) :
    (keyCmpSeg S rec1 key pos seg).map (· + seg.length) =
      if recSegDiffers S seg rec1 rec2 then none
      else some (pos + seg.width + seg.drift rec1) := by
  -- both values are there, and lie at `pos'` in the key
  have hvalue : ∀ pos', seg.isNull rec1 = false → seg.isNull rec2 = false →
      ValueAt KeySeg.keyLength S rec2 key pos' seg →
      pos' + (if seg.type = .varText1 then 2 else 0) + seg.length = pos + seg.width →
      (keyCmpValue S rec1 key pos' seg).map (· + seg.length) =
        if recSegDiffers S seg rec1 rec2 then none
        else some (pos + seg.width + seg.drift rec1) := by
    intro pos' h₁ h₂ hval hpos
    rw [keyCmpValue_read hseg h₁ h₂ hval]
    by_cases hdiff : recSegDiffers S seg rec1 rec2 = true
    · simp [hdiff]
    · simp only [hdiff, Bool.false_eq_true, if_false, Option.map_some, KeySeg.drift, h₁, and_true]
      congr 1
      omega
  have hread := hread.1
  unfold keyCmpSeg
  by_cases hbit : seg.nullBit = 0
  · rw [if_neg (by simpa using hbit)] at hread
    rw [if_neg (by simpa using hbit)]
    apply hvalue pos (KeySeg.isNull_of_not_nullable hbit) (KeySeg.isNull_of_not_nullable hbit) hread
    simp only [KeySeg.width, hbit, ne_eq, not_true_eq_false, if_false]
    omega
  rw [if_pos hbit] at hread
  rw [if_pos hbit]
  obtain ⟨hbyte, hval⟩ := hread
  have hkey : (key pos).toNat = (seg.isNull rec2).toNat := by
    rw [hbyte]
    cases seg.isNull rec2 <;> rfl
  by_cases hsame : seg.isNull rec1 = seg.isNull rec2
  · rw [if_neg (by rw [hkey, hsame]; simp)]
    cases h₁ : seg.isNull rec1 with
    | true =>
        have hnot := not_differs_of_null (S := S) hseg h₁ (hsame ▸ h₁)
        simp only [hnot, if_true, Bool.false_eq_true, if_false, Option.map_some, KeySeg.width, hbit,
          ne_eq, not_false_eq_true, KeySeg.drift, h₁, and_false, reduceCtorEq]
        congr 1
        split <;> omega
    | false =>
        have h₂ : seg.isNull rec2 = false := hsame ▸ h₁
        rw [if_neg (by simp)]
        apply hvalue (pos + 1) h₁ h₂ (hval h₂)
        simp only [KeySeg.width, hbit, ne_eq, not_false_eq_true, if_true]
        omega
  · rw [differs_of_isNull hsame, if_pos rfl, if_pos]
    · rfl
    · rw [hkey]
      intro heq
      apply hsame
      cases h₁ : seg.isNull rec1 <;> cases h₂ : seg.isNull rec2 <;> simp_all

/-- The records agree up to a BIT segment with odd bits, and on it, that is not NULL and
not the last segment. -/
def PassesOddBits (S : Server) (segs : List KeySeg) (rec1 rec2 : Buffer) : Prop :=
  ∃ pre seg post, segs = pre ++ seg :: post ∧ post ≠ [] ∧ seg.oddBits = true ∧
    seg.isNull rec1 = false ∧ ∀ s ∈ pre ++ [seg], recSegDiffers S s rec1 rec2 = false

/-- As long as it does not step over odd bits, `fm_key_cmp` keeps in step with the
segments. -/
theorem keyCmpLoop_read (hsegs : ∀ seg ∈ segs, seg.Prepared) (hread : Readable S rec2 key pos segs)
    (hpass : ¬ PassesOddBits S segs rec1 rec2) :
    keyCmpLoop S rec1 key pos segs = if segs.any fun seg => recSegDiffers S seg rec1 rec2
    then 1 else 0 := by
  induction segs generalizing pos with
  | nil => rfl
  | cons seg segs ih =>
      have hround : (keyCmpSeg S rec1 key pos seg).map (· + seg.length) = _ :=
        keyCmpSeg_read (hsegs seg List.mem_cons_self) hread
      unfold keyCmpLoop
      by_cases hdiff : recSegDiffers S seg rec1 rec2 = true
      · rw [if_pos hdiff, Option.map_eq_none_iff] at hround
        simp [hround, hdiff]
      · rw [if_neg hdiff, Option.map_eq_some_iff] at hround
        obtain ⟨pos', hpos', hnext⟩ := hround
        rw [hpos']
        show keyCmpLoop S rec1 key (pos' + seg.length) segs = _
        have hsame : recSegDiffers S seg rec1 rec2 = false := by simpa using hdiff
        rw [hnext, List.any_cons, hsame, Bool.false_or]
        by_cases hlast : segs = []
        · subst hlast
          rfl
        · have hdrift : seg.drift rec1 = 0 := by
            unfold KeySeg.drift
            rw [if_neg]
            intro hodd
            apply hpass
            exact ⟨[], seg, segs, rfl, hlast, hodd.1, hodd.2, by simpa using hsame⟩
          rw [hdrift, Nat.add_zero]
          apply ih (fun s hs => hsegs s (List.mem_cons_of_mem _ hs)) hread.2
          intro hpass'
          obtain ⟨pre, odd, post, rfl, hpost, hodd, hnull, hagree⟩ := hpass'
          apply hpass
          refine ⟨seg :: pre, odd, post, rfl, hpost, hodd, hnull, fun s hs => ?_⟩
          rcases List.mem_cons.mp hs with rfl | hs
          · exact hsame
          · exact hagree s hs

/-- **A packed key compares like the record it was packed from**, unless `fm_key_cmp`
steps over the odd bits of a BIT segment on the way to another one. -/
theorem packed_key_compares_like_record (S : Server) (parts : List KeyPart) (noSame : Bool)
    (rec1 rec2 key : Buffer) (hpack : Packed S rec2 key (prepareKey S parts noSame).seg)
    (hpass : ¬ PassesOddBits S (prepareKey S parts noSame).seg rec1 rec2) :
    fmKeyCmp S (prepareKey S parts noSame) rec1 key = 0 ↔
      fmRecKeyCmp S (prepareKey S parts noSame) rec1 rec2 = 0 := by
  have hprep := prepareKey_prepared S parts noSame
  unfold fmKeyCmp fmRecKeyCmp
  rw [keyCmpLoop_read hprep (hpack.readable hprep) hpass]

/-- An odd bit behind two bytes: nothing is stepped over. -/
theorem packed_key_compares_like_record_odd_bits_last :
    let parts := [byteColumn .other false 2 2 0 (by omega), byteColumn .bit false 1 2 1 (by omega)]
    fmKeyCmp byteServer (prepareKey byteServer parts true) (bufferOf [128, 5, 7, 8])
        (bufferOf [7, 8, 1, 5]) = 0 ↔
      fmRecKeyCmp byteServer (prepareKey byteServer parts true) (bufferOf [128, 5, 7, 8])
        (bufferOf [128, 5, 7, 8]) = 0 := by
  intro parts
  apply packed_key_compares_like_record
  · exact ⟨rfl, ⟨rfl, rfl⟩, trivial⟩
  · intro hpass
    obtain ⟨pre, odd, post, hsplit, hpost, hodd, -, -⟩ := hpass
    match pre, hsplit with
    | [], hsplit =>
        obtain ⟨rfl, -⟩ := List.cons.inj hsplit
        cases hodd
    | [a], hsplit =>
        obtain ⟨-, hsplit⟩ := List.cons.inj hsplit
        exact hpost (List.cons.inj hsplit).2.symm
    | a :: b :: pre, hsplit => simp [prepareKey, parts] at hsplit

/-- An odd bit in front of two bytes: a record does not compare equal to its own packed
key. -/
theorem packed_key_differs_behind_odd_bits :
    ¬ ∀ (S : Server) (parts : List KeyPart) (noSame : Bool) (rec1 rec2 key : Buffer),
      Packed S rec2 key (prepareKey S parts noSame).seg →
      (fmKeyCmp S (prepareKey S parts noSame) rec1 key = 0 ↔
        fmRecKeyCmp S (prepareKey S parts noSame) rec1 rec2 = 0) := by
  intro hall
  have hsame := hall byteServer
    [byteColumn .bit false 1 2 1 (by omega), byteColumn .other false 2 2 0 (by omega)] true
    (bufferOf [128, 5, 7, 8]) (bufferOf [128, 5, 7, 8]) (bufferOf [1, 5, 7, 8])
    ⟨⟨rfl, rfl⟩, rfl, trivial⟩
  have hcmp := hsame.mpr (by decide)
  revert hcmp
  decide

end FastMem
