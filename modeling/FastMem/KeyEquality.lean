import FastMem.KeyPacking

/-!
# Equal keys hash equally

`fm_rec_key_cmp` and `fm_rec_hashnr` limit the value of a segment with computations of
their own.  Both read the same bytes of a record, so that records whose keys compare
equal cannot hash differently; an update whose keys compare equal stays in its chain.
-/

namespace FastMem

open Bytes

variable {S : Server} {rec rec' : Buffer} {seg : KeySeg}

/-- Strings that the collation makes equal hash equally. -/
def CharsetInfo.HashesAlike (cs : CharsetInfo) : Prop :=
  ∀ b b', cs.strnncollsp b b' = 0 → ∀ h, cs.hashSort h b = cs.hashSort h b'

/-- What the engine may expect of a collation: equality is an equivalence that the hash
respects. -/
structure CharsetInfo.Collates (cs : CharsetInfo) : Prop where
  equivalence : Equivalence fun b b' => cs.strnncollsp b b' = 0
  hashesAlike : cs.HashesAlike

/-- A VARCHAR segment has one length byte or two. -/
def KeySeg.LengthBytes (seg : KeySeg) : Prop :=
  seg.type = .varText1 → seg.bitStart = 1 ∨ seg.bitStart = 2

/-- The bytes of a segment: those of a string, or those of a BIT column with the odd bits
in front, or those of the column. -/
def KeySeg.value (S : Server) (seg : KeySeg) (rec : Buffer) : List UInt8 :=
  match seg.type with
  | .text => slice rec seg.start (seg.copied rec)
  | .varText1 => slice rec (seg.start + seg.bitStart) (seg.varLimited rec)
  | _ =>
      if seg.oddBits then seg.bits S rec :: slice rec seg.start (seg.length - 1)
      else slice rec seg.start seg.length

/-- Two values of a segment are equal: strings by their collation. -/
def KeySeg.SameValue (seg : KeySeg) (b b' : List UInt8) : Prop :=
  match seg.type with
  | .text | .varText1 => seg.charset.strnncollsp b b' = 0
  | _ => b = b'

/-- The hash of a value of a segment. -/
def KeySeg.hashOf (S : Server) (seg : KeySeg) (h : Hasher) (b : List UInt8) : Hasher :=
  match seg.type with
  | .text | .varText1 => seg.charset.hashSort h b
  | _ => Hasher.addBytes S h b

/-- Having the same value is an equivalence. -/
theorem KeySeg.sameValue_equivalence (hcs : seg.charset.Collates) : Equivalence seg.SameValue := by
  cases htype : seg.type with
  | text | varText1 =>
      have hsame : seg.SameValue = fun b b' => seg.charset.strnncollsp b b' = 0 := by
        funext b b'
        simp [KeySeg.SameValue, htype]
      rw [hsame]
      exact hcs.equivalence
  | _ =>
      have hsame : seg.SameValue = Eq := by
        funext b b'
        simp [KeySeg.SameValue, htype]
      rw [hsame]
      exact eq_equivalence

/-- The same values hash alike. -/
theorem KeySeg.hashOf_eq (hcs : seg.charset.HashesAlike) {b b' : List UInt8}
    (hsame : seg.SameValue b b') (h : Hasher) : seg.hashOf S h b = seg.hashOf S h b' := by
  unfold KeySeg.SameValue at hsame
  unfold KeySeg.hashOf
  cases htype : seg.type with
  | text | varText1 =>
      rw [htype] at hsame
      exact hcs b b' hsame h
  | _ =>
      rw [htype] at hsame
      rw [hsame]

/-- A value is NULL if its null bit is set. -/
theorem KeySeg.isNull_iff : seg.isNull rec = true ↔ seg.nullOf rec ≠ 0 := by
  by_cases hbit : seg.nullBit = 0
  · simp [KeySeg.isNull, KeySeg.nullOf, hbit]
  · simp [KeySeg.isNull, hbit]

/-- A round of `fm_rec_hashnr` hashes the value. -/
theorem recHashSeg_value (hnull : seg.isNull rec = false) (h : Hasher) :
    recHashSeg S rec h seg = seg.hashOf S h (seg.value S rec) := by
  unfold recHashSeg KeySeg.hashOf KeySeg.value
  rw [if_neg (by simp [hnull])]
  cases htype : seg.type with
  | text => rfl
  | varText1 => rfl
  | _ =>
      by_cases hodd : seg.oddBits = true
      · simp only [hodd, if_true]
        rfl
      · simp only [hodd, if_false, Bool.false_eq_true]

/-- A round of `fm_rec_key_cmp` compares the null bits and the values. -/
theorem recSegDiffers_eq_false_iff (hlen : seg.LengthBytes) : recSegDiffers S seg rec rec' = false ↔
    seg.nullOf rec = seg.nullOf rec' ∧
      (seg.isNull rec = false → seg.SameValue (seg.value S rec) (seg.value S rec')) := by
  have hbit : (seg.nullBit ≠ 0 ∧ seg.nullOf rec ≠ seg.nullOf rec') ↔
      seg.nullOf rec ≠ seg.nullOf rec' := by
    constructor
    · exact fun h => h.2
    · intro hne
      refine ⟨fun hzero => hne ?_, hne⟩
      simp [KeySeg.nullOf, hzero]
  unfold recSegDiffers
  rw [if_congr hbit rfl rfl]
  by_cases hnulls : seg.nullOf rec = seg.nullOf rec'
  · rw [if_neg (by simpa using hnulls)]
    cases hnull : seg.isNull rec with
    | true => simp [hnulls]
    | false =>
        simp only [hnulls, true_and, Bool.false_eq_true, if_false, forall_const]
        unfold KeySeg.SameValue KeySeg.value
        cases htype : seg.type with
        | text => simp [KeySeg.copied]
        | varText1 =>
            have hpack : (if seg.bitStart = 1 then 1 else 2) = seg.bitStart := by
              rcases hlen htype with hone | htwo
              · rw [if_pos hone, hone]
              · rw [if_neg (by omega), htwo]
            simp [hpack, KeySeg.varLimited, Nat.min_comm]
        | _ =>
            by_cases hodd : seg.oddBits = true
            · by_cases hbits : seg.bits S rec = seg.bits S rec' <;> simp [hodd, hbits]
            · simp [hodd]
  · rw [if_pos hnulls]
    simp [hnulls]

/-- The records agree on a segment. -/
def SegAgrees (S : Server) (seg : KeySeg) (rec rec' : Buffer) : Prop :=
  recSegDiffers S seg rec rec' = false

/-- Agreeing on a segment is an equivalence. -/
theorem segAgrees_equivalence (hlen : seg.LengthBytes) (hcs : seg.charset.Collates) :
    Equivalence (SegAgrees S seg) := by
  have hvalue := KeySeg.sameValue_equivalence hcs
  have hnull : ∀ {a b}, seg.nullOf a = seg.nullOf b → seg.isNull a = seg.isNull b := by
    intro a b hab
    rw [Bool.eq_iff_iff, KeySeg.isNull_iff, KeySeg.isNull_iff, hab]
  unfold SegAgrees
  simp only [recSegDiffers_eq_false_iff hlen]
  constructor
  case refl => exact fun a => ⟨rfl, fun _ => hvalue.refl _⟩
  case symm =>
    intro a b hab
    exact ⟨hab.1.symm, fun hb => hvalue.symm (hab.2 ((hnull hab.1).trans hb))⟩
  case trans =>
    intro a b c hab hbc
    refine ⟨hab.1.trans hbc.1, fun ha => ?_⟩
    exact hvalue.trans (hab.2 ha) (hbc.2 ((hnull hab.1).symm.trans ha))

/-- Segments that agree add the same to a hash. -/
theorem recHashSeg_eq (hlen : seg.LengthBytes) (hcs : seg.charset.HashesAlike)
    (h : SegAgrees S seg rec rec')
    (hash : Hasher) : recHashSeg S rec hash seg = recHashSeg S rec' hash seg := by
  obtain ⟨hnulls, hsame⟩ := (recSegDiffers_eq_false_iff hlen).mp h
  have hnull : seg.isNull rec = seg.isNull rec' := by
    rw [Bool.eq_iff_iff, KeySeg.isNull_iff, KeySeg.isNull_iff, hnulls]
  cases hrec : seg.isNull rec with
  | true => rw [recHashSeg, recHashSeg, if_pos hrec, if_pos (hnull ▸ hrec)]
  | false =>
      rw [recHashSeg_value hrec, recHashSeg_value (hnull ▸ hrec)]
      exact KeySeg.hashOf_eq hcs (hsame hrec) hash

/-- Records compare equal if they agree on every segment. -/
theorem recKeyCmp_eq_zero_iff {keydef : KeyDef} :
    fmRecKeyCmp S keydef rec rec' = 0 ↔ ∀ seg ∈ keydef.seg, SegAgrees S seg rec rec' := by
  unfold fmRecKeyCmp SegAgrees
  by_cases hany : (keydef.seg.any fun seg => recSegDiffers S seg rec rec') = true
  · rw [if_pos hany]
    simpa using List.any_eq_true.mp hany
  · rw [if_neg hany]
    simpa using hany

/-- Keys that agree segment by segment hash equally. -/
theorem foldl_recHashSeg_eq {segs : List KeySeg} (hlen : ∀ seg ∈ segs, seg.LengthBytes)
    (hcs : ∀ seg ∈ segs, seg.charset.HashesAlike) (h : ∀ seg ∈ segs, SegAgrees S seg rec rec')
    (hash : Hasher) : segs.foldl (recHashSeg S rec) hash = segs.foldl (recHashSeg S rec') hash := by
  induction segs generalizing hash with
  | nil => rfl
  | cons seg segs ih =>
      have hseg := recHashSeg_eq (hlen seg List.mem_cons_self) (hcs seg List.mem_cons_self)
        (h seg List.mem_cons_self) hash
      rw [List.foldl_cons, List.foldl_cons, hseg]
      exact ih (fun s hs => hlen s (List.mem_cons_of_mem _ hs))
        (fun s hs => hcs s (List.mem_cons_of_mem _ hs))
        (fun s hs => h s (List.mem_cons_of_mem _ hs)) _

/-- **Equal keys hash equally.**  Comparing equal on a key is an equivalence of records,
and records that compare equal have the same hash, and both a NULL in the key or neither. -/
theorem equal_keys_hash_equally (S : Server) (keydef : KeyDef)
    (hlen : ∀ seg ∈ keydef.seg, seg.LengthBytes) (hcs : ∀ seg ∈ keydef.seg, seg.charset.Collates) :
    Equivalence (fun a b => fmRecKeyCmp S keydef a b = 0) ∧
      ∀ a b, fmRecKeyCmp S keydef a b = 0 →
        fmRecHashnr S keydef a = fmRecHashnr S keydef b ∧
        fmIfNullInKey keydef a = fmIfNullInKey keydef b := by
  simp only [recKeyCmp_eq_zero_iff]
  have hequiv : ∀ seg ∈ keydef.seg, Equivalence (SegAgrees S seg) :=
    fun seg hseg => segAgrees_equivalence (hlen seg hseg) (hcs seg hseg)
  refine ⟨⟨?_, ?_, ?_⟩, ?_⟩
  · exact fun a seg hseg => (hequiv seg hseg).refl a
  · exact fun hab seg hseg => (hequiv seg hseg).symm (hab seg hseg)
  · exact fun hab hbc seg hseg => (hequiv seg hseg).trans (hab seg hseg) (hbc seg hseg)
  · intro a b hab
    constructor
    · unfold fmRecHashnr
      rw [foldl_recHashSeg_eq hlen (fun seg hseg => (hcs seg hseg).hashesAlike) hab]
    · unfold fmIfNullInKey
      rw [Bool.eq_iff_iff, List.any_eq_true, List.any_eq_true]
      have hnull : ∀ seg ∈ keydef.seg, seg.isNull a = seg.isNull b := by
        intro seg hseg
        have hnulls := ((recSegDiffers_eq_false_iff (hlen seg hseg)).mp (hab seg hseg)).1
        rw [Bool.eq_iff_iff, KeySeg.isNull_iff, KeySeg.isNull_iff, hnulls]
      constructor
      · intro h
        obtain ⟨seg, hseg, ha⟩ := h
        exact ⟨seg, hseg, (hnull seg hseg).symm.trans ha⟩
      · intro h
        obtain ⟨seg, hseg, hb⟩ := h
        exact ⟨seg, hseg, (hnull seg hseg).trans hb⟩

/-- Comparing bytes is a collation. -/
theorem byteCharset_collates : byteCharset.Collates where
  equivalence := by
    have heq : (fun b b' => byteCharset.strnncollsp b b' = 0) = Eq := by
      funext b b'
      simp [byteCharset]
    rw [heq]
    exact eq_equivalence
  hashesAlike := byteCharset.hashSort_eq

/-- A CHAR column, VARCHAR columns with one length byte and with two, a BIT column with an
odd bit and a binary one, of which one is nullable. -/
theorem equal_keys_hash_equally_mixed :
    let parts :=
  [byteColumn .text false 2 3 0 (Nat.succ_pos 2), byteColumn .varText1 true 5 3 0 (Nat.succ_pos 2),
      byteColumn .varText2 false 9 3 0 (Nat.succ_pos 2), byteColumn .bit false 14 2 1 Nat.two_pos,
      byteColumn .other false 16 4 0 (Nat.succ_pos 3)]
    Equivalence (fun a b => fmRecKeyCmp byteServer (prepareKey byteServer parts true) a b = 0) ∧
      ∀ a b, fmRecKeyCmp byteServer (prepareKey byteServer parts true) a b = 0 →
        fmRecHashnr byteServer (prepareKey byteServer parts true) a =
          fmRecHashnr byteServer (prepareKey byteServer parts true) b ∧
        fmIfNullInKey (prepareKey byteServer parts true) a =
          fmIfNullInKey (prepareKey byteServer parts true) b := by
  intro parts
  apply equal_keys_hash_equally
  · exact fun seg hseg => (prepareKey_prepared byteServer parts true seg hseg).pack
  · have hcharset : ∀ seg ∈ (prepareKey byteServer parts true).seg,
        seg.charset = byteCharset.toCharsetInfo := by
      simp [prepareKey, parts, KeyPart.toSeg, byteColumn, KeyType.stored, KeySeg.unified]
    intro seg hseg
    rw [hcharset seg hseg]
    exact byteCharset_collates

end FastMem
