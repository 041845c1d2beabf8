import FastMem.KeyEquality
import FastMem.SeqHandler

/-!
# The keys `fm_make_key` makes

`fm_make_key` packs a record for `find_unique_row`.  It does not pack what the functions
on packed keys read: it copies a VARCHAR with the length bytes the record has, be it one,
and as many bytes as the first characters of the column take, length bytes included; it
does not limit the length; and it moves on by what it has copied.  So the key is
readable if the value of every segment has been copied far enough, and every segment but
the last has its full width.
-/

namespace FastMem

open Bytes

variable {S : Server} {rec rec' key buf : Buffer} {seg : KeySeg} {segs : List KeySeg} {pos : Nat}

/-- What `fm_make_key` copies of a segment is all that is compared: the segment is NULL,
or a TEXT, or a VARCHAR with two length bytes of which the bytes compared are among those
copied, or it has been copied whole. -/
def KeySeg.Copied (seg : KeySeg) (rec : Buffer) : Prop :=
  seg.isNull rec = true ∨
    match seg.type with
    | .text => True
    | .varText1 =>
        seg.bitStart = 2 ∧
          if 1 < seg.charset.mbmaxlen then seg.varLimited rec ≤ seg.copied rec
          else seg.varLength rec ≤ seg.length
    | _ => seg.copied rec = seg.length

/-- `fm_make_key` moves on by the width of the segment. -/
def KeySeg.FullWidth (seg : KeySeg) (rec : Buffer) : Prop :=
  seg.copied rec = seg.length ∧ (seg.type = .varText1 → seg.bitStart = 2)

/-- The key that `fm_make_key` makes of the record can be compared: every segment is
copied far enough, and every segment but the last has its full width and no odd bits that
`fm_key_cmp` would step over. -/
structure Makable (segs : List KeySeg) (rec : Buffer) : Prop where
  copied : ∀ seg ∈ segs, seg.Copied rec
  width : ∀ pre seg post, segs = pre ++ seg :: post → post ≠ [] → seg.FullWidth rec
  odd : ∀ pre seg post, segs = pre ++ seg :: post → post ≠ [] → seg.oddBits = true →
    seg.isNull rec = true

/-- The pointer of `fm_make_key` behind a segment. -/
def KeySeg.made (seg : KeySeg) (rec : Buffer) : Nat :=
  (if seg.nullBit ≠ 0 then 1 else 0) +
    if seg.type = .varText1 then seg.copied rec + seg.bitStart
    else if seg.oddBits then 1 + (seg.copied rec - 1)
    else seg.copied rec

/-- The rest of the segments can be made as well. -/
theorem Makable.tail (h : Makable (seg :: segs) rec) : Makable segs rec where
  copied := fun s hs => h.copied s (List.mem_cons_of_mem _ hs)
  width := fun pre s post hsplit => h.width (seg :: pre) s post (by rw [hsplit, List.cons_append])
  odd := fun pre s post hsplit => h.odd (seg :: pre) s post (by rw [hsplit, List.cons_append])

section

open Conc

variable {n : Nat} {parts : Nat → List KeyPart} {noSame : Nat → Bool}
  {base : TableCfg n UInt8 Buffer}

end

end FastMem
