import FastMem.Buffer

/-!
# Keys in records and packed keys

The server-side half of the hash index, `fm_hash.cc`: how a key is hashed and compared
where it lies in a record, how a packed search key is hashed and compared with a
record, and how `fm_make_key` packs a key from a record.  The segments are built by
`fm_prepare_create_info`.

A record and a packed key are byte buffers.  The position of a segment in a record is
fixed; the functions on packed keys walk, each with pointer arithmetic of its own, so
each of them is a step per segment that returns where the pointer stands afterwards.

What the engine takes from the server is a parameter: the character-set functions, and
the macros `my_hasher_mysql5x`, `MY_HASH_ADD_MARIADB` and `get_rec_bits`.
-/

namespace FastMem

open Bytes

/-- `my_hasher_st`. -/
structure Hasher where
  nr1 : UInt64
  nr2 : UInt64
  deriving DecidableEq, Repr

/-- `CHARSET_INFO`, as far as the engine uses it.  `charpos b num` is the offset behind
the first `num` characters of `b`, which is beyond the end if `b` has fewer. -/
structure CharsetInfo where
  mbmaxlen : Nat
  charpos : List UInt8 → Nat → Nat
  hashSort : Hasher → List UInt8 → Hasher
  strnncollsp : List UInt8 → List UInt8 → Int

/-- A character set of the server.  Where `num` characters end depends on these characters
only, and strings that the collation makes equal hash equally. -/
structure Charset extends CharsetInfo where
  charpos_local : ∀ (b b' : List UInt8) (num : Nat), charpos b num ≤ b.length →
    charpos b num ≤ b'.length → b'.take (charpos b num) = b.take (charpos b num) →
    charpos b' num = charpos b num
  hashSort_eq : ∀ b b', strnncollsp b b' = 0 → ∀ h, hashSort h b = hashSort h b'

/-- The server's hashing macros, its access to the odd bits of a BIT column, and its
binary character set. -/
structure Server where
  hasherMysql5x : Hasher
  hashAdd : Hasher → UInt8 → Hasher
  getRecBits : Buffer → Nat → Nat → Nat → UInt8
  charsetBin : Charset

/-- `HA_KEYTYPE_*`, as far as the engine tells them apart. -/
inductive KeyType
  | text | varText1 | varText2 | varBinary1 | varBinary2 | bit | binary | other
  deriving DecidableEq, Repr

/-- A column of a key, as the server describes it: `KEY_PART_INFO` and its `Field`.  The
null bit of a column is a single bit of the record, and the odd bits of a BIT column
take a byte of the key part. -/
structure KeyPart where
  keyType : KeyType
  offset : Nat
  length : Nat
  enumOrSet : Bool
  charset : Charset
  null : Option (UInt8 × Nat)
  bitLen : Nat
  bitOfs : Nat
  bitPtr : Nat
  null_single : ∀ bit pos, null = some (bit, pos) → ∀ b : UInt8, b &&& bit = 0 ∨ b &&& bit = bit
  length_pos : keyType = .bit → 0 < bitLen → 0 < length

/-- `HA_KEYSEG`. -/
structure KeySeg where
  type : KeyType
  start : Nat
  length : Nat
  charset : CharsetInfo
  nullBit : UInt8
  nullPos : Nat
  bitStart : Nat
  bitLength : Nat
  bitPos : Nat

/-- `FM_KEYDEF`: the segments, and whether the key has `HA_NOSAME`. -/
structure KeyDef where
  seg : List KeySeg
  noSame : Bool

/-- The type a key part gets first: what is no string and no BIT is compared as bytes. -/
def KeyType.stored : KeyType → KeyType
  | .other => .binary
  | type => type

/-- The last loop of `fm_prepare_create_info`: every VARCHAR and VARBINARY becomes one
type, and `bit_start` its number of length bytes. -/
def KeySeg.unified (seg : KeySeg) : KeySeg :=
  match seg.type with
  | .varBinary1 | .varText1 => { seg with type := .varText1, bitStart := 1 }
  | .varBinary2 | .varText2 => { seg with type := .varText1, bitStart := 2 }
  | _ => seg

/-- A segment, as `fm_prepare_create_info` sets it up. -/
def KeyPart.toSeg (S : Server) (p : KeyPart) : KeySeg :=
  let type := p.keyType.stored
  let seg : KeySeg :=
    { type := type
      start := p.offset
      length := p.length
      charset := (if p.enumOrSet then S.charsetBin else p.charset).toCharsetInfo
      nullBit := (p.null.map Prod.fst).getD 0
      nullPos := (p.null.map Prod.snd).getD 0
      bitStart := if type = .bit then p.bitOfs else 0
      bitLength := if type = .bit then p.bitLen else 0
      bitPos := if type = .bit then p.bitPtr else 0 }
  seg.unified

/-- `fm_prepare_create_info`, for one key. -/
def prepareKey (S : Server) (parts : List KeyPart) (noSame : Bool) : KeyDef :=
  ⟨parts.map (KeyPart.toSeg S), noSame⟩

/-- What `fm_prepare_create_info` promises of a segment: a type the functions below
know, a character set of the server, the number of length bytes of a VARCHAR, a single
null bit, and the byte of odd bits. -/
structure KeySeg.Prepared (seg : KeySeg) : Prop where
  type : seg.type = .text ∨ seg.type = .varText1 ∨ seg.type = .bit ∨ seg.type = .binary
  charset : ∃ cs : Charset, seg.charset = cs.toCharsetInfo
  pack : seg.type = .varText1 → seg.bitStart = 1 ∨ seg.bitStart = 2
  null : ∀ b : UInt8, b &&& seg.nullBit = 0 ∨ b &&& seg.nullBit = seg.nullBit
  odd : seg.type = .bit → seg.bitLength ≠ 0 → 0 < seg.length

/-- The segment of a key part is prepared. -/
theorem KeyPart.toSeg_prepared (S : Server) (p : KeyPart) : (p.toSeg S).Prepared := by
  have hnull : ∀ b : UInt8, b &&& (p.null.map Prod.fst).getD 0 = 0 ∨
      b &&& (p.null.map Prod.fst).getD 0 = (p.null.map Prod.fst).getD 0 := by
    intro b
    cases hp : p.null with
    | none => simp
    | some bp => exact p.null_single bp.1 bp.2 hp b
  have hlength := p.length_pos
  constructor
  case type =>
    cases htype : p.keyType <;> simp [KeyPart.toSeg, htype, KeyType.stored, KeySeg.unified]
  case charset =>
    refine ⟨if p.enumOrSet then S.charsetBin else p.charset, ?_⟩
    cases htype : p.keyType <;> simp [KeyPart.toSeg, htype, KeyType.stored, KeySeg.unified]
  case pack =>
    cases htype : p.keyType <;> simp [KeyPart.toSeg, htype, KeyType.stored, KeySeg.unified]
  case null =>
    cases htype : p.keyType <;>
      simpa [KeyPart.toSeg, htype, KeyType.stored, KeySeg.unified] using hnull
  case odd =>
    cases htype : p.keyType with
    | bit =>
        intro _ hodd
        have hodd : p.bitLen ≠ 0 := by
          simpa [KeyPart.toSeg, htype, KeyType.stored, KeySeg.unified] using hodd
        simpa [KeyPart.toSeg, htype, KeyType.stored, KeySeg.unified] using
          hlength htype (Nat.pos_of_ne_zero hodd)
    | _ => simp [KeyPart.toSeg, htype, KeyType.stored, KeySeg.unified]

/-- `rec[seg->null_pos] & seg->null_bit`. -/
def KeySeg.nullOf (seg : KeySeg) (rec : Buffer) : UInt8 := rec seg.nullPos &&& seg.nullBit

/-- The segment is NULL in the record. -/
def KeySeg.isNull (seg : KeySeg) (rec : Buffer) : Bool := seg.nullBit ≠ 0 && seg.nullOf rec ≠ 0

/-- The segment is a BIT column with odd bits. -/
def KeySeg.oddBits (seg : KeySeg) : Bool := seg.type = .bit && seg.bitLength ≠ 0

/-- The odd bits of a BIT segment. -/
def KeySeg.bits (S : Server) (seg : KeySeg) (rec : Buffer) : UInt8 :=
  S.getRecBits rec seg.bitPos seg.bitStart seg.bitLength

/-- The length of a VARCHAR value in a record: one length byte, or two. -/
def KeySeg.varLength (seg : KeySeg) (rec : Buffer) : Nat :=
  if seg.bitStart = 1 then (rec seg.start).toNat else uint2 rec seg.start

/-- `hasher.m_nr1 ^= (hasher.m_nr1 << 1) | 1`, for a NULL. -/
def Hasher.addNull (h : Hasher) : Hasher := { h with nr1 := h.nr1 ^^^ ((h.nr1 <<< 1) ||| 1) }

/-- `MY_HASH_ADD_MARIADB`, over a range. -/
def Hasher.addBytes (S : Server) (h : Hasher) (bs : List UInt8) : Hasher := bs.foldl S.hashAdd h

/-- One round of the loop in `fm_rec_hashnr`. -/
def recHashSeg (S : Server) (rec : Buffer) (h : Hasher) (seg : KeySeg) : Hasher :=
  if seg.isNull rec then h.addNull
  else
    let cs := seg.charset
    match seg.type with
    | .text =>
        let charLength :=
          if 1 < cs.mbmaxlen then
            min (cs.charpos (slice rec seg.start seg.length) (seg.length / cs.mbmaxlen)) seg.length
          else seg.length
        cs.hashSort h (slice rec seg.start charLength)
    | .varText1 =>
        let pos := seg.start + seg.bitStart
        let length := seg.varLength rec
        let length :=
          if 1 < cs.mbmaxlen then
            min length (cs.charpos (slice rec pos length) (seg.length / cs.mbmaxlen))
          else min length seg.length
        cs.hashSort h (slice rec pos length)
    | _ =>
        if seg.oddBits then
          Hasher.addBytes S (S.hashAdd h (seg.bits S rec)) (slice rec seg.start (seg.length - 1))
        else Hasher.addBytes S h (slice rec seg.start seg.length)

/-- `fm_rec_hashnr`. -/
def fmRecHashnr (S : Server) (keydef : KeyDef) (rec : Buffer) : UInt64 :=
  (keydef.seg.foldl (recHashSeg S rec) S.hasherMysql5x).nr1

/-- One round of the loop in `fm_rec_key_cmp`: whether it returns 1. -/
def recSegDiffers (S : Server) (seg : KeySeg) (rec1 rec2 : Buffer) : Bool :=
  if seg.nullBit ≠ 0 ∧ seg.nullOf rec1 ≠ seg.nullOf rec2 then true
  else if seg.isNull rec1 then false
  else
    let cs := seg.charset
    match seg.type with
    | .text =>
        let charLength := fun rec : Buffer =>
          if 1 < cs.mbmaxlen then
            min (cs.charpos (slice rec seg.start seg.length) (seg.length / cs.mbmaxlen)) seg.length
          else seg.length
        cs.strnncollsp (slice rec1 seg.start (charLength rec1))
        (slice rec2 seg.start (charLength rec2)) ≠ 0
    | .varText1 =>
        let pos := seg.start + if seg.bitStart = 1 then 1 else 2
        let charLength := fun rec : Buffer =>
          let length := seg.varLength rec
          if 1 < cs.mbmaxlen then
            min (cs.charpos (slice rec pos length) (seg.length / cs.mbmaxlen)) length
          else min length seg.length
        cs.strnncollsp (slice rec1 pos (charLength rec1)) (slice rec2 pos (charLength rec2)) ≠ 0
    | _ =>
        if seg.oddBits then
          if seg.bits S rec1 ≠ seg.bits S rec2 then true
          else slice rec1 seg.start (seg.length - 1) ≠ slice rec2 seg.start (seg.length - 1)
        else slice rec1 seg.start seg.length ≠ slice rec2 seg.start seg.length

/-- `fm_rec_key_cmp`. -/
def fmRecKeyCmp (S : Server) (keydef : KeyDef) (rec1 rec2 : Buffer) : Int :=
  if keydef.seg.any fun seg => recSegDiffers S seg rec1 rec2 then 1 else 0

/-- `fm_if_null_in_key`. -/
def fmIfNullInKey (keydef : KeyDef) (rec : Buffer) : Bool :=
  keydef.seg.any fun seg => seg.isNull rec

/-- The rest of a round of the loop in `fm_hashnr`, for a value that is not NULL: `pos`
is where it lies and `next` where the pointer stands already. -/
def hashValue (S : Server) (key : Buffer) (h : Hasher) (pos next : Nat)
    (seg : KeySeg) : Hasher × Nat :=
  let cs := seg.charset
  match seg.type with
  | .text =>
      let length := seg.length
      let length :=
        if 1 < cs.mbmaxlen
          then min length (cs.charpos (slice key pos length) (length / cs.mbmaxlen))
        else length
      (cs.hashSort h (slice key pos length), next)
  | .varText1 =>
      let length := uint2 key pos                          -- key packing is constant
      let length :=
        if 1 < cs.mbmaxlen then
          min length (cs.charpos (slice key (pos + 2) length) (seg.length / cs.mbmaxlen))
        else length
      (cs.hashSort h (slice key (pos + 2) length), next + 2)
  | _ => (Hasher.addBytes S h (slice key pos (next - pos)), next)

/-- One round of the loop in `fm_hashnr`. -/
def hashSeg (S : Server) (key : Buffer) (st : Hasher × Nat) (seg : KeySeg) : Hasher × Nat :=
  let pos := st.2
  let next := st.2 + seg.length
  if seg.nullBit ≠ 0 then
    let next := next + 1                                   -- skip null byte
    if key pos ≠ 0 then
      (st.1.addNull, if seg.type = .varText1 then next + 2 else next)
    else hashValue S key st.1 (pos + 1) next seg
  else hashValue S key st.1 pos next seg

/-- `fm_hashnr`. -/
def fmHashnr (S : Server) (keydef : KeyDef) (key : Buffer) : UInt64 :=
  (keydef.seg.foldl (hashSeg S key) (S.hasherMysql5x, 0)).1.nr1

/-- The rest of the body of the loop in `fm_key_cmp`, for a value that is not NULL: where
the pointer stands behind it, or `none` if the function returns 1. -/
def keyCmpValue (S : Server) (rec key : Buffer) (pos : Nat) (seg : KeySeg) : Option Nat :=
  let cs := seg.charset
  match seg.type with
  | .text =>
      let charLength := fun (b : Buffer) (at' : Nat) =>
        if 1 < cs.mbmaxlen then
          min (cs.charpos (slice b at' seg.length) (seg.length / cs.mbmaxlen)) seg.length
        else seg.length
      if cs.strnncollsp (slice rec seg.start (charLength rec seg.start))
          (slice key pos (charLength key pos)) ≠ 0 then none
      else some pos
  | .varText1 =>
      let recPos := seg.start + seg.bitStart
      let lengthRec := seg.varLength rec
      let lengthKey := uint2 key pos                       -- always packed with 2 bytes
      let pos := pos + 2
      let charLengthKey :=
        if 1 < cs.mbmaxlen then
          min lengthKey (cs.charpos (slice key pos lengthKey) (seg.length / cs.mbmaxlen))
        else lengthKey
      let charLengthRec :=
        if 1 < cs.mbmaxlen then
          min lengthRec (cs.charpos (slice rec recPos lengthRec) (seg.length / cs.mbmaxlen))
        else min lengthRec seg.length
      if cs.strnncollsp (slice rec recPos charLengthRec) (slice key pos charLengthKey) ≠ 0 then none
      else some pos
  | _ =>
      if seg.oddBits then
        if seg.bits S rec ≠ key pos then none
        else
          let pos := pos + 1
          if slice rec seg.start (seg.length - 1) ≠ slice key pos (seg.length - 1) then none
          else some pos
      else if slice rec seg.start seg.length ≠ slice key pos seg.length then none
      else some pos

/-- The body of the loop in `fm_key_cmp`. -/
def keyCmpSeg (S : Server) (rec key : Buffer) (pos : Nat) (seg : KeySeg) : Option Nat :=
  if seg.nullBit ≠ 0 then
    if (seg.isNull rec).toNat ≠ (key pos).toNat then none
    else if seg.isNull rec then
      some (if seg.type = .varText1 then pos + 1 + 2 else pos + 1)
    else keyCmpValue S rec key (pos + 1) seg
  else keyCmpValue S rec key pos seg

/-- The loop of `fm_key_cmp`, `key+= (seg++)->length` after each round. -/
def keyCmpLoop (S : Server) (rec key : Buffer) : Nat → List KeySeg → Int
  | _, [] => 0
  | pos, seg :: segs =>
      match keyCmpSeg S rec key pos seg with
      | none => 1
      | some pos => keyCmpLoop S rec key (pos + seg.length) segs

/-- `fm_key_cmp`. -/
def fmKeyCmp (S : Server) (keydef : KeyDef) (rec key : Buffer) : Int :=
  keyCmpLoop S rec key 0 keydef.seg

/-- The bytes of a segment that `fm_make_key` copies, not counting the length bytes of a
VARCHAR: up to `seg->length` bytes from the start of the column. -/
def KeySeg.copied (seg : KeySeg) (rec : Buffer) : Nat :=
  if 1 < seg.charset.mbmaxlen then
    min (seg.charset.charpos (slice rec seg.start seg.length) (seg.length / seg.charset.mbmaxlen))
    seg.length
  else seg.length

/-- `MY_HASH_ADD_MARIADB`. -/
def Hasher.add (h : Hasher) (b : UInt8) : Hasher :=
  ⟨h.nr1 ^^^ (((h.nr1 &&& (63 : UInt64)) + h.nr2) * b.toUInt64 + (h.nr1 <<< (8 : UInt64))),
    h.nr2 + (3 : UInt64)⟩

/-- A single-byte character set in which only equal bytes are equal. -/
def byteCharset : Charset where
  mbmaxlen := 1
  charpos := fun _ num => num
  hashSort := fun h b => b.foldl Hasher.add h
  strnncollsp := fun b b' => if b = b' then 0 else 1
  charpos_local := fun _ _ _ _ _ _ => rfl
  hashSort_eq := by
    intro b b' h
    have heq : b = b' := by simpa using h
    rw [heq]
    exact fun _ => rfl

/-- A server with that character set. -/
def byteServer : Server where
  hasherMysql5x := ⟨1, 4⟩
  hashAdd := Hasher.add
  getRecBits := fun rec pos start len =>
    ((uint2 rec pos >>> start) % 2 ^ len).toUInt8
  charsetBin := byteCharset

/-- A buffer that begins with the given bytes. -/
def bufferOf (bs : List UInt8) : Buffer := fun i => bs.getD i 0

/-- A bit is set or it is not. -/
theorem and_one_single (b : UInt8) : b &&& 1 = 0 ∨ b &&& 1 = 1 := by
  have hand : b.toNat &&& 1 = b.toNat % 2 := Nat.and_one_is_mod _
  rcases Nat.mod_two_eq_zero_or_one b.toNat with hzero | hone
  · left
    apply UInt8.toNat_inj.mp
    simp [hzero]
  · right
    apply UInt8.toNat_inj.mp
    simp [hone]

/-- A column of that server.  If it is nullable, its null bit is the lowest of the record,
and the odd bits of a BIT column are the highest of the same byte. -/
def byteColumn (type : KeyType) (nullable : Bool) (offset length bitLen : Nat)
    (length_pos : 0 < length) : KeyPart where
  keyType := type
  offset := offset
  length := length
  enumOrSet := false
  charset := byteCharset
  null := if nullable then some (1, 0) else none
  bitLen := bitLen
  bitOfs := 8 - bitLen
  bitPtr := 0
  null_single := by
    intro bit pos hnull
    cases nullable with
    | true =>
        cases hnull
        exact and_one_single
    | false => cases hnull
  length_pos := fun _ _ => length_pos

end FastMem
