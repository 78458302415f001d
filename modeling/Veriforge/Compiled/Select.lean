import Veriforge.Words

/-! # Selects of the compiled engine

The accessors of the generated code that read a slice of a signal, of a memory element or of a value in scratch words
(`templates/narrow_accessors.pxi`, `templates/narrow_tail.pxi`, `_gen_wide_section.py`). A read outside of the words
that a source owns is not defined, which is `none`. -/

namespace Veriforge.Compiled.Select

open Words

/-- One plane of a signal: its entry in the array of machine words, and its own words in the wide array. -/
structure Plane where
  narrow : Word
  wide : List Word

/-- A plane of a signal with so many bits and wide words. Nothing is kept above the width. -/
structure Plane.Fits (plane : Plane) (width wideWords : Nat) : Prop where
  length : plane.wide.length = wideWords
  clean : ∀ p : Int, width ≤ p → bitAt plane.wide p = false

/-- A signal of the context and its entries in the pre-edge snapshot. A narrow one has no wide words. -/
structure Signal where
  width : Nat
  wideWords : Nat
  val : Plane
  mask : Plane
  snapVal : Plane
  snapMask : Plane
  width_pos : 0 < width
  width_le : width ≤ 64 * max 1 wideWords
  val_fits : val.Fits width wideWords
  mask_fits : mask.Fits width wideWords
  snapVal_fits : snapVal.Fits width wideWords
  snapMask_fits : snapMask.Fits width wideWords

/-- An element of a wide memory and its words in the snapshot. -/
structure Element where
  width : Nat
  words : Nat
  val : List Word
  mask : List Word
  snapVal : List Word
  snapMask : List Word
  width_le : width ≤ 64 * words
  length_val : val.length = words
  length_mask : mask.length = words
  length_snapVal : snapVal.length = words
  length_snapMask : snapMask.length = words

/-- A value in scratch words. -/
structure Scratch where
  width : Nat
  words : Nat
  val : List Word
  mask : List Word
  length_val : val.length = words
  length_mask : mask.length = words

/-! ## Words -/

/-- `_word_mask64` -/
def wordMask64 (w : Int) : Word :=
  if 64 ≤ w then BitVec.allOnes 64
  else if w ≤ 0 then 0
  else (1 : Word) <<< w.toNat - 1

/-- `a[i]`, where `own` are all words of `a` that belong to the source. -/
def readOwn (own : List Word) (i : Int) : Option Word := if 0 ≤ i then own[i.toNat]? else none

/-- A word of a wide source, zero outside of its words. -/
def ownWord (words : Nat) (own : List Word) (wordIndex : Int) : Option Word :=
  if 0 ≤ wordIndex ∧ wordIndex < words then readOwn own wordIndex else some 0

/-- A word of a plane of a signal. -/
def sigWord (s : Signal) (plane : Plane) (wordIndex : Int) : Option Word :=
  if 0 < s.wideWords then ownWord s.wideWords plane.wide wordIndex
  else if wordIndex = 0 then some (plane.narrow &&& wordMask64 s.width)
  else some 0

/-- `_sig_word_val` -/
def sigWordVal (s : Signal) : Int → Option Word := sigWord s s.val

/-- `_sig_word_mask` -/
def sigWordMask (s : Signal) : Int → Option Word := sigWord s s.mask

/-- `_sig_word_val_snap` -/
def sigWordValSnap (s : Signal) : Int → Option Word := ownWord s.wideWords s.snapVal.wide

/-- `_sig_word_mask_snap` -/
def sigWordMaskSnap (s : Signal) : Int → Option Word := ownWord s.wideWords s.snapMask.wide

/-- `_wmemN_word_val` -/
def wmemWordVal (e : Element) : Int → Option Word := ownWord e.words e.val

/-- `_wmemN_word_mask` -/
def wmemWordMask (e : Element) : Int → Option Word := ownWord e.words e.mask

/-- `_wmemN_word_val_snap` -/
def wmemWordValSnap (e : Element) : Int → Option Word := ownWord e.words e.snapVal

/-- `_wmemN_word_mask_snap` -/
def wmemWordMaskSnap (e : Element) : Int → Option Word := ownWord e.words e.snapMask

/-! ## Windows of 64 bits -/

/-- Two neighbouring words, shifted together. A shift by 64 is not defined, so an aligned window is read alone. -/
def extractRaw (word : Int → Option Word) (lsb : Int) : Option Word := do
  let lo ← word (lsb / 64)
  if lsb % 64 = 0 then some lo
  else
    let hi ← word (lsb / 64 + 1)
    some (lo >>> (lsb % 64).toNat ||| hi <<< (64 - (lsb % 64).toNat))

/-- `_sig_extract_word_val_raw` -/
def sigExtractWordValRaw (s : Signal) : Int → Option Word := extractRaw (sigWordVal s)

/-- `_sig_extract_word_mask_raw` -/
def sigExtractWordMaskRaw (s : Signal) : Int → Option Word := extractRaw (sigWordMask s)

/-- A window of the snapshot. -/
def extractSvRaw (s : Signal) (plane : Plane) (word : Int → Option Word) (lsb : Int) : Option Word :=
  if 0 < s.wideWords then extractRaw word lsb
  else
    let lo := plane.narrow &&& wordMask64 s.width
    some (if lsb % 64 = 0 then lo else lo >>> (lsb % 64).toNat)

/-- `_sig_extract_word_val_sv_raw` -/
def sigExtractWordValSvRaw (s : Signal) : Int → Option Word := extractSvRaw s s.snapVal (sigWordValSnap s)

/-- `_sig_extract_word_mask_sv_raw` -/
def sigExtractWordMaskSvRaw (s : Signal) : Int → Option Word := extractSvRaw s s.snapMask (sigWordMaskSnap s)

/-- `_oor_bits` -/
def oorBits (w lsb : Int) : Word :=
  if w ≤ lsb ∨ lsb ≤ -64 then BitVec.allOnes 64
  else
    (if w < lsb + 64 then BitVec.allOnes 64 <<< (w - lsb).toNat else 0) |||
      (if lsb < 0 then (1 : Word) <<< (-lsb).toNat - 1 else 0)

/-- `_narrow_window` -/
def narrowWindow (base : Word) (lsb : Int) : Word :=
  if 64 ≤ lsb ∨ lsb ≤ -64 then 0
  else if 0 ≤ lsb then base >>> lsb.toNat
  else base <<< (-lsb).toNat

/-- The value bits of a window: zero outside of the source. -/
def extractVal (oor : Word) (raw : Option Word) : Option Word :=
  if oor = BitVec.allOnes 64 then some 0 else raw.map (· &&& ~~~oor)

/-- The mask bits of a window: `x` outside of the source. -/
def extractMask (oor : Word) (raw : Option Word) : Option Word :=
  if oor = BitVec.allOnes 64 then some oor else raw.map (· ||| oor)

/-- `_sig_extract_word_val` -/
def sigExtractWordVal (s : Signal) (lsb : Int) : Option Word :=
  extractVal (oorBits s.width lsb) (sigExtractWordValRaw s lsb)

/-- `_sig_extract_word_mask` -/
def sigExtractWordMask (s : Signal) (lsb : Int) : Option Word :=
  extractMask (oorBits s.width lsb) (sigExtractWordMaskRaw s lsb)

/-- `_sig_extract_word_val_sv` -/
def sigExtractWordValSv (s : Signal) (lsb : Int) : Option Word :=
  extractVal (oorBits s.width lsb)
    (if 0 < s.wideWords then sigExtractWordValSvRaw s lsb
     else some (narrowWindow (s.snapVal.narrow &&& wordMask64 s.width) lsb))

/-- `_sig_extract_word_mask_sv` -/
def sigExtractWordMaskSv (s : Signal) (lsb : Int) : Option Word :=
  extractMask (oorBits s.width lsb)
    (if 0 < s.wideWords then sigExtractWordMaskSvRaw s lsb
     else some (narrowWindow (s.snapMask.narrow &&& wordMask64 s.width) lsb))

/-- `_wmemN_extract_val` -/
def wmemExtractVal (e : Element) (lsb : Int) : Option Word :=
  extractVal (oorBits e.width lsb) (extractRaw (wmemWordVal e) lsb)

/-- `_wmemN_extract_mask` -/
def wmemExtractMask (e : Element) (lsb : Int) : Option Word :=
  extractMask (oorBits e.width lsb) (extractRaw (wmemWordMask e) lsb)

/-- `_wmemN_extract_val_snap` -/
def wmemExtractValSnap (e : Element) (lsb : Int) : Option Word :=
  extractVal (oorBits e.width lsb) (extractRaw (wmemWordValSnap e) lsb)

/-- `_wmemN_extract_mask_snap` -/
def wmemExtractMaskSnap (e : Element) (lsb : Int) : Option Word :=
  extractMask (oorBits e.width lsb) (extractRaw (wmemWordMaskSnap e) lsb)

/-- What the code makes of an accessor for a select of `width` bits: window after window, the last one cut. For a select
of at most 64 bits that is `accessor(c, …, lsb) & _word_mask64(width)`. -/
def windows (accessor : Int → Option Word) (lsb : Int) (width : Nat) : Option (List Word) :=
  (List.range ((width + 63) / 64)).mapM fun i : Nat =>
    (accessor (lsb + 64 * i)).map (· &&& wordMask64 (width - 64 * i))

/-- A select by an accessor for each plane. -/
def select (val mask : Int → Option Word) (lsb : Int) (width : Nat) : Option (List Word × List Word) := do
  let v ← windows val lsb width
  let m ← windows mask lsb width
  some (v, m)

/-- The loop of `_wmemN_py_extract_val`, from chunk `i` down. -/
def pyExtractFrom (accessor : Int → Option Word) (lsb : Int) (width : Nat) : Nat → Nat → Option Nat
  | 0, value => some value
  | i + 1, value => do
      let chunkW := min 64 (width - 64 * i)
      let word ← accessor (lsb + 64 * i)
      pyExtractFrom accessor lsb width i (value <<< chunkW ||| (word &&& wordMask64 chunkW).toNat)

/-- A select as a Python integer. -/
def pyExtract (accessor : Int → Option Word) (lsb : Int) (width : Nat) : Option Nat :=
  (pyExtractFrom accessor lsb width ((width + 63) / 64) 0).map (· &&& (1 <<< width - 1))

/-- `_wmemN_py_extract_val` -/
def wmemPyExtractVal (e : Element) : Int → Nat → Option Nat := pyExtract (wmemExtractVal e)

/-- `_wmemN_py_extract_mask` -/
def wmemPyExtractMask (e : Element) : Int → Nat → Option Nat := pyExtract (wmemExtractMask e)

/-! ## Slices of many words -/

/-- `hi_v` of `wide_slice_extract`. Only the end of the source is checked. -/
def sliceHi (a : List Word) (nSrc : Nat) (sw : Int) (srcShift : Nat) : Option Word :=
  if 0 < srcShift ∧ sw + 1 < nSrc then (readOwn a (sw + 1)).map fun word : Word => word <<< (64 - srcShift)
  else some 0

/-- Word `i` of a plane of `wide_slice_extract`. -/
def sliceWord (a : List Word) (lsb width : Int) (nSrc i : Nat) : Option Word := do
  let lo ← ownWord nSrc a (lsb / 64 + i)
  let hi ← sliceHi a nSrc (lsb / 64 + i) (lsb % 64).toNat
  some ((lo >>> (lsb % 64).toNat ||| hi) &&& wordMask64 (width - 64 * i))

/-- `wide_slice_extract` -/
def wideSliceExtract (av am : List Word) (lsb width : Int) (nSrc nDst : Nat) : Option (List Word × List Word) := do
  let dv ← (List.range nDst).mapM (sliceWord av lsb width nSrc)
  let dm ← (List.range nDst).mapM (sliceWord am lsb width nSrc)
  some (dv, dm)

/-- The bits of word `i` that `wide_slice_xfill` makes `x`. Its loop stops at the first word past the width, and the
words after that one lie past it too. -/
def xfillWord (lsb width srcW : Int) (i : Nat) : Word :=
  if width - 64 * i ≤ 0 then 0 else oorBits srcW (lsb + 64 * i) &&& wordMask64 (width - 64 * i)

/-- `wide_slice_xfill` -/
def wideSliceXfill (d : List Word × List Word) (lsb width srcW : Int) (nDst : Nat) : List Word × List Word :=
  ((List.range nDst).map fun i => d.1.getD i 0 &&& ~~~xfillWord lsb width srcW i,
   (List.range nDst).map fun i => d.2.getD i 0 ||| xfillWord lsb width srcW i)

/-- A slice of a value in scratch words, as the emitted code takes it. -/
def selectSlice (a : Scratch) (lsb : Int) (width nDst : Nat) : Option (List Word × List Word) :=
  (wideSliceExtract a.val a.mask lsb width a.words nDst).map fun d => wideSliceXfill d lsb width a.width nDst

/-- Word `i` of a plane of `_whole_assign_slice_const_signal`. -/
def assignWord (word : Int → Option Word) (lsb srcWidth dstWidth : Int) (i : Nat) : Option Word :=
  if srcWidth - 64 * i ≤ 0 then some 0
  else (extractRaw word (lsb + 64 * i)).map
    (· &&& wordMask64 (srcWidth - 64 * i) &&& wordMask64 (dstWidth - 64 * i))

/-- `_whole_assign_slice_const_signal`: the words that the destination gets. -/
def wholeAssignSliceConstSignal (dst src : Signal) (lsb : Int) (srcWidth : Int) : Option (List Word × List Word) := do
  let dstWords := if 0 < dst.wideWords then dst.wideWords else 1
  let v ← (List.range dstWords).mapM (assignWord (sigWordVal src) lsb srcWidth dst.width)
  let m ← (List.range dstWords).mapM (assignWord (sigWordMask src) lsb srcWidth dst.width)
  some (v, m)

end Veriforge.Compiled.Select
