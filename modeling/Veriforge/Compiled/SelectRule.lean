import Veriforge.Compiled.Select

/-! # The select rule

A select delivers the bits of its source, and `x` where it reaches past it. The windows of signals and memory elements
do so everywhere; the slice over many words reads in front of its source when the select starts far below it, and an
assignment of a slice reads zeros outside of it. -/

namespace Veriforge.Compiled.Select

open Words

/-- Position `p` lies in a source of so many bits. -/
def inside (width : Nat) (p : Int) : Bool := decide (0 ≤ p ∧ p < width)

/-- The value bit that a select has for position `p`: zero where it is `x`. -/
def selectVal (width : Nat) (source : Int → Bool) (p : Int) : Bool := inside width p && source p

/-- The mask bit that a select has for position `p`: `x` outside of the source. -/
def selectMask (width : Nat) (source : Int → Bool) (p : Int) : Bool := !inside width p || source p

/-! ## Masks -/

/-- `n` ones. -/
theorem getLsbD_ones {n : Nat} (hn : n < 64) (k : Nat) : ((1 : Word) <<< n - 1).getLsbD k = decide (k < n) := by
  have hlt : 2 ^ n < 2 ^ 64 := Nat.pow_lt_pow_right (by omega) hn
  have hpos : 0 < 2 ^ n := Nat.two_pow_pos n
  have hshift : ((1 : Word) <<< n).toNat = 2 ^ n := by
    rw [BitVec.toNat_shiftLeft, Nat.shiftLeft_eq]
    show 1 * 2 ^ n % 2 ^ 64 = 2 ^ n
    rw [Nat.one_mul, Nat.mod_eq_of_lt hlt]
  have hones : ((1 : Word) <<< n - 1).toNat = 2 ^ n - 1 := by
    rw [BitVec.toNat_sub, hshift]
    show (2 ^ 64 - 1 + 2 ^ n) % 2 ^ 64 = _
    omega
  rw [← BitVec.testBit_toNat, hones, Nat.testBit_two_pow_sub_one]

theorem getLsbD_wordMask64 (w : Int) {k : Nat} (hk : k < 64) : (wordMask64 w).getLsbD k = decide ((k : Int) < w) := by
  unfold wordMask64
  split
  · rw [BitVec.getLsbD_allOnes, decide_eq_true hk, decide_eq_true (by omega)]
  · split
    · rw [decide_eq_false (by omega)]
      exact BitVec.getLsbD_zero
    · rw [getLsbD_ones (by omega)]
      exact decide_eq_decide.mpr (by omega)

theorem getLsbD_oorBits (w : Nat) (lsb : Int) {k : Nat} (hk : k < 64) :
    (oorBits w lsb).getLsbD k = !inside w (lsb + k) := by
  unfold oorBits inside
  split
  · rw [BitVec.getLsbD_allOnes, decide_eq_true hk, decide_eq_false (by omega)]
    rfl
  · next hnear =>
    rw [BitVec.getLsbD_or]
    have habove : (if (w : Int) < lsb + 64 then BitVec.allOnes 64 <<< (w - lsb).toNat else 0).getLsbD k =
        decide ((w : Int) ≤ lsb + k) := by
      split
      · rw [BitVec.getLsbD_shiftLeft, BitVec.getLsbD_allOnes]
        by_cases hw : (w : Int) ≤ lsb + k
        · have hle : ¬k < (w - lsb).toNat := by omega
          have hlt : k - (w - lsb).toNat < 64 := by omega
          simp [hk, hle, hlt, hw]
        · have hlt : k < (w - lsb).toNat := by omega
          simp [hlt, hw]
      · rw [decide_eq_false (by omega)]
        exact BitVec.getLsbD_zero
    have hbelow : (if lsb < 0 then (1 : Word) <<< (-lsb).toNat - 1 else 0).getLsbD k = decide (lsb + k < 0) := by
      split
      · rw [getLsbD_ones (by omega)]
        exact decide_eq_decide.mpr (by omega)
      · rw [decide_eq_false (by omega)]
        exact BitVec.getLsbD_zero
    rw [habove, hbelow, ← Bool.decide_or, ← decide_not]
    exact decide_eq_decide.mpr (by omega)

/-- No bit of a window lies in the source when all of them are marked. -/
theorem inside_of_oorBits {w : Nat} {lsb : Int} (h : oorBits w lsb = BitVec.allOnes 64) {k : Nat} (hk : k < 64) :
    inside w (lsb + k) = false := by
  have hbit := getLsbD_oorBits w lsb hk
  rw [h, BitVec.getLsbD_allOnes, decide_eq_true hk] at hbit
  simpa using hbit.symm

/-! ## Accessors -/

/-- The accessor never reads a word that is not the source's, and its windows hold the bits `bit`. -/
def Reads (accessor : Int → Option Word) (bit : Int → Bool) : Prop :=
  ∀ lsb, ∃ word, accessor lsb = some word ∧ ∀ k : Nat, k < 64 → word.getLsbD k = bit (lsb + k)

theorem reads_extractVal {raw : Int → Option Word} {bit source : Int → Bool} {w : Nat} (h : Reads raw bit)
    (hbit : ∀ p, inside w p = true → bit p = source p) :
    Reads (fun lsb => extractVal (oorBits w lsb) (raw lsb)) (selectVal w source) := by
  intro lsb
  obtain ⟨word, hraw, hword⟩ := h lsb
  by_cases hall : oorBits w lsb = BitVec.allOnes 64
  · refine ⟨0, if_pos hall, fun k hk => ?_⟩
    rw [selectVal, inside_of_oorBits hall hk]
    exact BitVec.getLsbD_zero
  · refine ⟨word &&& ~~~oorBits w lsb, ?_, fun k hk => ?_⟩
    · simp only [extractVal, if_neg hall, hraw, Option.map_some]
    · rw [BitVec.getLsbD_and, BitVec.getLsbD_not, getLsbD_oorBits w lsb hk, hword k hk, decide_eq_true hk, selectVal]
      cases hin : inside w (lsb + k) with
      | false => simp
      | true => simp [hbit _ hin]

theorem reads_extractMask {raw : Int → Option Word} {bit source : Int → Bool} {w : Nat} (h : Reads raw bit)
    (hbit : ∀ p, inside w p = true → bit p = source p) :
    Reads (fun lsb => extractMask (oorBits w lsb) (raw lsb)) (selectMask w source) := by
  intro lsb
  obtain ⟨word, hraw, hword⟩ := h lsb
  by_cases hall : oorBits w lsb = BitVec.allOnes 64
  · refine ⟨oorBits w lsb, if_pos hall, fun k hk => ?_⟩
    rw [getLsbD_oorBits w lsb hk, selectMask, inside_of_oorBits hall hk]
    rfl
  · refine ⟨word ||| oorBits w lsb, ?_, fun k hk => ?_⟩
    · simp only [extractMask, if_neg hall, hraw, Option.map_some]
    · rw [BitVec.getLsbD_or, getLsbD_oorBits w lsb hk, hword k hk, selectMask]
      cases hin : inside w (lsb + k) with
      | false => simp
      | true => simp [hbit _ hin]

/-- A window of two words is a window of the bits. -/
theorem reads_extractRaw {word : Int → Option Word} {ws : List Word} (h : ∀ i, word i = some (wordAt ws i)) :
    Reads (extractRaw word) (bitAt ws) := by
  intro lsb
  refine ⟨window (wordAt ws) lsb, ?_, fun k hk => getLsbD_window _ _ hk⟩
  simp only [extractRaw, h, Option.bind_eq_bind, Option.bind_some]
  unfold window
  split
  · rfl
  · rfl

/-- A word of the source's own, or zero. -/
theorem ownWord_eq {words : Nat} {own : List Word} (hlen : own.length = words) (i : Int) :
    ownWord words own i = some (wordAt own i) := by
  unfold ownWord
  split
  · next hin =>
    rw [readOwn, if_pos hin.1, wordAt, if_pos hin.1, List.getElem?_eq_getElem (by omega), List.getD_eq_getElem]
  · next hout =>
    by_cases hneg : i < 0
    · rw [wordAt_of_neg own hneg]
    · rw [wordAt_of_length_le (by omega)]

/-- The words in which a signal keeps a plane. -/
def Signal.stored (s : Signal) (plane : Plane) : List Word :=
  if 0 < s.wideWords then plane.wide else [plane.narrow &&& wordMask64 s.width]

theorem sigWord_eq (s : Signal) {plane : Plane} (h : plane.Fits s.width s.wideWords) (i : Int) :
    sigWord s plane i = some (wordAt (s.stored plane) i) := by
  unfold sigWord Signal.stored
  split
  · exact ownWord_eq h.length i
  · split
    · next hzero =>
      rw [hzero]
      rfl
    · next hzero =>
      by_cases hneg : i < 0
      · rw [wordAt_of_neg _ hneg]
      · rw [wordAt_of_length_le (by simp; omega)]

theorem bitAt_singleton (word : Word) {k : Nat} (hk : k < 64) : bitAt [word] k = word.getLsbD k := by
  have hfirst := bitOf_add (wordAt [word]) 0 hk
  rwa [Int.mul_zero, Int.zero_add] at hfirst

theorem reads_narrowWindow (base : Word) : Reads (fun lsb => some (narrowWindow base lsb)) (bitAt [base]) := by
  intro lsb
  refine ⟨_, rfl, fun k hk => ?_⟩
  unfold narrowWindow
  split
  · next hfar =>
    rw [show (0 : Word).getLsbD k = false from BitVec.getLsbD_zero]
    rcases hfar with hfar | hfar
    · rw [bitAt_of_length_le (by simp; omega)]
    · rw [bitAt_of_neg _ (by omega)]
  · split
    · next hpos =>
      rw [BitVec.getLsbD_ushiftRight]
      by_cases hin : lsb.toNat + k < 64
      · rw [← bitAt_singleton base hin]
        congr 1
        omega
      · rw [BitVec.getLsbD_of_ge _ _ (by omega), bitAt_of_length_le (by simp; omega)]
    · next hneg =>
      rw [BitVec.getLsbD_shiftLeft, decide_eq_true hk, Bool.true_and]
      by_cases hin : k < (-lsb).toNat
      · rw [bitAt_of_neg _ (by omega), decide_eq_true hin]
        rfl
      · rw [decide_eq_false hin, Bool.not_false, Bool.true_and, ← bitAt_singleton base (by omega)]
        congr 1
        omega

/-! ## Sources -/

/-- The bits of a plane of a signal. -/
def Signal.bits (s : Signal) (plane : Plane) : Int → Bool :=
  bitAt (if 0 < s.wideWords then plane.wide else [plane.narrow])

/-- Nothing but what lies above the width is masked. -/
theorem bitAt_stored (s : Signal) (plane : Plane) {p : Int} (hp : inside s.width p = true) :
    bitAt (s.stored plane) p = s.bits plane p := by
  unfold Signal.stored Signal.bits
  split
  · rfl
  · next hnarrow =>
    obtain ⟨hneg, hlt⟩ := of_decide_eq_true hp
    have hwidth := s.width_le
    obtain ⟨k, rfl⟩ := Int.eq_ofNat_of_zero_le hneg
    have hk : k < 64 := by omega
    rw [bitAt_singleton _ hk, bitAt_singleton _ hk, BitVec.getLsbD_and, getLsbD_wordMask64 _ hk,
      decide_eq_true hlt, Bool.and_true]

theorem reads_live {s : Signal} {plane : Plane} (h : plane.Fits s.width s.wideWords) :
    Reads (extractRaw (sigWord s plane)) (bitAt (s.stored plane)) :=
  reads_extractRaw (sigWord_eq s h)

/-- The snapshot of a narrow signal is read by shifting its word. -/
theorem reads_snapshot {s : Signal} {plane : Plane} (h : plane.Fits s.width s.wideWords) : Reads (fun lsb =>
      if 0 < s.wideWords then extractSvRaw s plane (ownWord s.wideWords plane.wide) lsb
      else some (narrowWindow (plane.narrow &&& wordMask64 s.width) lsb)) (bitAt (s.stored plane)) := by
  unfold extractSvRaw Signal.stored
  split
  · exact reads_extractRaw (ownWord_eq h.length)
  · exact reads_narrowWindow _

theorem reads_sigExtractWordVal (s : Signal) : Reads (sigExtractWordVal s) (selectVal s.width (s.bits s.val)) :=
  reads_extractVal (reads_live s.val_fits) fun _ => bitAt_stored s s.val

theorem reads_sigExtractWordMask (s : Signal) : Reads (sigExtractWordMask s) (selectMask s.width (s.bits s.mask)) :=
  reads_extractMask (reads_live s.mask_fits) fun _ => bitAt_stored s s.mask

theorem reads_sigExtractWordValSv (s : Signal) :
    Reads (sigExtractWordValSv s) (selectVal s.width (s.bits s.snapVal)) :=
  reads_extractVal (reads_snapshot s.snapVal_fits) fun _ => bitAt_stored s s.snapVal

theorem reads_sigExtractWordMaskSv (s : Signal) :
    Reads (sigExtractWordMaskSv s) (selectMask s.width (s.bits s.snapMask)) :=
  reads_extractMask (reads_snapshot s.snapMask_fits) fun _ => bitAt_stored s s.snapMask

theorem reads_wmemExtractVal (e : Element) : Reads (wmemExtractVal e) (selectVal e.width (bitAt e.val)) :=
  reads_extractVal (reads_extractRaw (ownWord_eq e.length_val)) fun _ _ => rfl

theorem reads_wmemExtractMask (e : Element) : Reads (wmemExtractMask e) (selectMask e.width (bitAt e.mask)) :=
  reads_extractMask (reads_extractRaw (ownWord_eq e.length_mask)) fun _ _ => rfl

theorem reads_wmemExtractValSnap (e : Element) : Reads (wmemExtractValSnap e) (selectVal e.width (bitAt e.snapVal)) :=
  reads_extractVal (reads_extractRaw (ownWord_eq e.length_snapVal)) fun _ _ => rfl

theorem reads_wmemExtractMaskSnap (e : Element) :
    Reads (wmemExtractMaskSnap e) (selectMask e.width (bitAt e.snapMask)) :=
  reads_extractMask (reads_extractRaw (ownWord_eq e.length_snapMask)) fun _ _ => rfl

/-! ## Selects of any width -/

/-- The words hold the `n` bits from `lsb` on, and zeros above. -/
def Holds (words : List Word) (bit : Int → Bool) (lsb : Int) (n : Nat) : Prop :=
  ∀ k : Nat, bitAt words k = (decide (k < n) && bit (lsb + k))

theorem mapM_some {α β : Type} {f : α → Option β} {g : α → β} {l : List α} (h : ∀ a ∈ l, f a = some (g a)) :
    l.mapM f = some (l.map g) := by
  induction l with
  | nil => rfl
  | cons a l ih =>
    rw [List.mapM_cons, h a List.mem_cons_self, ih fun b hb => h b (List.mem_cons_of_mem a hb)]
    rfl

/-- An array made of words that hold 64 bits each. -/
theorem holds_map_range {f : Nat → Word} {bit : Int → Bool} {lsb : Int} {n words : Nat} (hn : n ≤ 64 * words)
    (h : ∀ i < words, ∀ k < 64, (f i).getLsbD k = (decide (64 * i + k < n) && bit (lsb + 64 * i + k))) :
    Holds ((List.range words).map f) bit lsb n := by
  intro k
  rw [bitAt_map_range]
  by_cases hk : k < 64 * words
  · have hpos : lsb + 64 * (k / 64 : Nat) + (k % 64 : Nat) = lsb + k := by omega
    rw [decide_eq_true hk, Bool.true_and, h _ (by omega) _ (Nat.mod_lt k (by decide)), Nat.div_add_mod, hpos]
  · rw [decide_eq_false hk, decide_eq_false (by omega), Bool.false_and, Bool.false_and]

/-- Window after window, the select is delivered. -/
theorem holds_windows {accessor : Int → Option Word} {bit : Int → Bool} (h : Reads accessor bit) (lsb : Int)
    (n : Nat) : ∃ words, windows accessor lsb n = some words ∧ Holds words bit lsb n := by
  choose word hword hbits using h
  refine ⟨_, mapM_some (g := fun i : Nat => word (lsb + 64 * i) &&& wordMask64 (n - 64 * i)) fun i _ => ?_,
    holds_map_range (by omega) fun i _ k hk => ?_⟩
  · rw [hword]
    rfl
  · rw [BitVec.getLsbD_and, getLsbD_wordMask64 _ hk, hbits _ k hk, Bool.and_comm]
    congr 1
    exact decide_eq_decide.mpr (by omega)

/-- Chunk after chunk from the highest, the integer holds the select. -/
theorem testBit_pyExtractFrom {accessor : Int → Option Word} {bit : Int → Bool} (h : Reads accessor bit) (lsb : Int)
    (n : Nat) (chunks value : Nat) : ∃ result, pyExtractFrom accessor lsb n chunks value = some result ∧
      ∀ k, result.testBit k =
        if k < min n (64 * chunks) then bit (lsb + k) else value.testBit (k - min n (64 * chunks)) := by
  induction chunks generalizing value with
  | zero => exact ⟨value, rfl, fun k => by simp⟩
  | succ i ih =>
    obtain ⟨word, hword, hbits⟩ := h (lsb + 64 * i)
    obtain ⟨result, hresult, htest⟩ :=
      ih (value <<< min 64 (n - 64 * i) ||| (word &&& wordMask64 (min 64 (n - 64 * i) : Nat)).toNat)
    refine ⟨result, ?_, fun k => ?_⟩
    · rw [pyExtractFrom, hword]
      exact hresult
    · rw [htest k, Nat.testBit_or, Nat.testBit_shiftLeft, BitVec.testBit_toNat, BitVec.getLsbD_and]
      by_cases hbelow : k < min n (64 * i)
      · rw [if_pos hbelow, if_pos (by omega)]
      · rw [if_neg hbelow]
        by_cases hchunk : k < min n (64 * (i + 1))
        · -- the bit lies in this chunk, and all chunks below are whole
          have hk : k - min n (64 * i) < 64 := by omega
          have hpos : lsb + 64 * i + (k - min n (64 * i) : Nat) = lsb + k := by omega
          have hin : ((k - min n (64 * i) : Nat) : Int) < (min 64 (n - 64 * i) : Nat) := by omega
          have hnew : ¬k - min n (64 * i) ≥ min 64 (n - 64 * i) := by omega
          rw [if_pos hchunk, getLsbD_wordMask64 _ hk, hbits _ hk, hpos, decide_eq_true hin, decide_eq_false hnew,
            Bool.false_and, Bool.false_or, Bool.and_true]
        · have hmask : (wordMask64 (min 64 (n - 64 * i) : Nat)).getLsbD (k - min n (64 * i)) = false := by
            by_cases hk : k - min n (64 * i) < 64
            · rw [getLsbD_wordMask64 _ hk, decide_eq_false (by omega)]
            · exact BitVec.getLsbD_of_ge _ _ (by omega)
          have hold : k - min n (64 * i) ≥ min 64 (n - 64 * i) := by omega
          rw [if_neg hchunk, hmask, Bool.and_false, Bool.or_false, decide_eq_true hold, Bool.true_and]
          congr 1
          omega

/-- The select as a Python integer. -/
theorem testBit_pyExtract {accessor : Int → Option Word} {bit : Int → Bool} (h : Reads accessor bit) (lsb : Int)
    (n : Nat) : ∃ value, pyExtract accessor lsb n = some value ∧
      ∀ k, value.testBit k = (decide (k < n) && bit (lsb + k)) := by
  obtain ⟨result, hresult, htest⟩ := testBit_pyExtractFrom h lsb n ((n + 63) / 64) 0
  refine ⟨result &&& (1 <<< n - 1), by rw [pyExtract, hresult]; rfl, fun k => ?_⟩
  rw [Nat.testBit_and, htest, Nat.one_shiftLeft, Nat.testBit_two_pow_sub_one, Bool.and_comm]
  by_cases hk : k < n
  · rw [if_pos (by omega)]
  · rw [decide_eq_false hk, Bool.false_and, Bool.false_and]

/-- The select is delivered: nothing is read that is not the source's, and its words hold the bits of the source. -/
def Delivers (result : Option (List Word × List Word)) (width : Nat) (val mask : Int → Bool) (lsb : Int) (n : Nat) :
    Prop :=
  ∃ dv dm, result = some (dv, dm) ∧ Holds dv (selectVal width val) lsb n ∧ Holds dm (selectMask width mask) lsb n

theorem delivers_select {accessorVal accessorMask : Int → Option Word} {width : Nat} {val mask : Int → Bool}
    (hval : Reads accessorVal (selectVal width val)) (hmask : Reads accessorMask (selectMask width mask)) (lsb : Int)
    (n : Nat) : Delivers (select accessorVal accessorMask lsb n) width val mask lsb n := by
  obtain ⟨dv, hdv, hv⟩ := holds_windows hval lsb n
  obtain ⟨dm, hdm, hm⟩ := holds_windows hmask lsb n
  refine ⟨dv, dm, ?_, hv, hm⟩
  rw [select, hdv, hdm]
  rfl

/-! ## Slices of scratch words -/

/-- The upper word that the slice reads first lies in front of the source. -/
def readsInFront (lsb : Int) : Prop := lsb < -64 ∧ lsb % 64 ≠ 0

theorem sliceHi_eq {a : List Word} {nSrc : Nat} (hlen : a.length = nSrc) {sw : Int} (hsw : -1 ≤ sw) {srcShift : Nat}
    (hshift : 0 < srcShift) : sliceHi a nSrc sw srcShift = some (wordAt a (sw + 1) <<< (64 - srcShift)) := by
  unfold sliceHi
  split
  · next hin =>
    have hown := ownWord_eq hlen (sw + 1)
    rw [ownWord, if_pos ⟨by omega, hin.2⟩] at hown
    rw [hown]
    rfl
  · next hout =>
    rw [wordAt_of_length_le (by omega)]
    simp

theorem sliceWord_eq {a : List Word} {lsb : Int} {nSrc : Nat} (hlen : a.length = nSrc) (h : ¬readsInFront lsb)
    (width : Int) (i : Nat) :
    sliceWord a lsb width nSrc i = some (window (wordAt a) (lsb + 64 * i) &&& wordMask64 (width - 64 * i)) := by
  have hdiv : (lsb + 64 * i) / 64 = lsb / 64 + i := by omega
  have hmod : (lsb + 64 * i) % 64 = lsb % 64 := by omega
  unfold readsInFront at h
  rw [sliceWord, ownWord_eq hlen, window, hdiv, hmod]
  by_cases haligned : lsb % 64 = 0
  · rw [if_pos haligned, haligned, sliceHi, if_neg (by simp)]
    simp
  · rw [if_neg haligned, sliceHi_eq hlen (by omega) (by omega)]
    rfl

theorem sliceWord_none {a : List Word} {lsb : Int} {nSrc : Nat} (hlen : a.length = nSrc) (h : readsInFront lsb)
    (width : Int) : sliceWord a lsb width nSrc 0 = none := by
  unfold readsInFront at h
  have hread : readOwn a (lsb / 64 + (0 : Nat) + 1) = none := if_neg (by omega)
  rw [sliceWord, ownWord_eq hlen, sliceHi, if_pos (by omega), hread]
  rfl

theorem getLsbD_xfillWord (lsb : Int) (n srcW i : Nat) {k : Nat} (hk : k < 64) :
    (xfillWord lsb n srcW i).getLsbD k = (decide (64 * i + k < n) && !inside srcW (lsb + 64 * i + k)) := by
  unfold xfillWord
  split
  · rw [decide_eq_false (by omega)]
    exact BitVec.getLsbD_zero
  · rw [BitVec.getLsbD_and, getLsbD_oorBits _ _ hk, getLsbD_wordMask64 _ hk, Bool.and_comm]
    congr 1
    exact decide_eq_decide.mpr (by omega)

theorem getLsbD_sliced (a : List Word) (lsb : Int) (n : Nat) {nDst i k : Nat} (hi : i < nDst) (hk : k < 64) :
    (((List.range nDst).map fun i : Nat => window (wordAt a) (lsb + 64 * i) &&& wordMask64 (n - 64 * i)).getD i
      0).getLsbD k = (decide (64 * i + k < n) && bitAt a (lsb + 64 * i + k)) := by
  rw [List.getD_eq_getElem?_getD, List.getElem?_map, List.getElem?_range hi, Option.map_some, Option.getD_some,
    BitVec.getLsbD_and, getLsbD_window _ _ hk, getLsbD_wordMask64 _ hk, Bool.and_comm]
  congr 1
  exact decide_eq_decide.mpr (by omega)

/-- A slice of scratch words is delivered unless it reads in front of them. -/
theorem delivers_selectSlice_iff (a : Scratch) (lsb : Int) {n nDst : Nat} (hn : 0 < n) (hdst : n ≤ 64 * nDst) :
    Delivers (selectSlice a lsb n nDst) a.width (bitAt a.val) (bitAt a.mask) lsb n ↔ -64 ≤ lsb ∨ lsb % 64 = 0 := by
  constructor
  · rintro ⟨dv, dm, hresult, -, -⟩
    by_contra! hfront
    obtain ⟨words, rfl⟩ : ∃ words, nDst = words + 1 := ⟨nDst - 1, by omega⟩
    rw [selectSlice, wideSliceExtract, List.range_succ_eq_map, List.mapM_cons,
      sliceWord_none a.length_val hfront] at hresult
    exact nomatch hresult
  · intro hreach
    have hfront : ¬readsInFront lsb := by
      unfold readsInFront
      omega
    have hextract : wideSliceExtract a.val a.mask lsb n a.words nDst =
        some ((List.range nDst).map fun i : Nat => window (wordAt a.val) (lsb + 64 * i) &&& wordMask64 (n - 64 * i),
          (List.range nDst).map fun i : Nat => window (wordAt a.mask) (lsb + 64 * i) &&& wordMask64 (n - 64 * i)) := by
      rw [wideSliceExtract, mapM_some fun i _ => sliceWord_eq a.length_val hfront n i,
        mapM_some fun i _ => sliceWord_eq a.length_mask hfront n i]
      rfl
    refine ⟨_, _, by rw [selectSlice, hextract]; rfl, holds_map_range hdst fun i hi k hk => ?_,
      holds_map_range hdst fun i hi k hk => ?_⟩
    · rw [BitVec.getLsbD_and, BitVec.getLsbD_not, getLsbD_xfillWord lsb n a.width i hk,
        getLsbD_sliced a.val lsb n hi hk, decide_eq_true hk, selectVal]
      cases decide (64 * i + k < n) with
      | false => rfl
      | true => simp [Bool.and_comm]
    · rw [BitVec.getLsbD_or, getLsbD_xfillWord lsb n a.width i hk, getLsbD_sliced a.mask lsb n hi hk, selectMask]
      cases decide (64 * i + k < n) with
      | false => rfl
      | true => simp [Bool.or_comm]

/-! ## Assignments of slices -/

theorem bitAt_stored_of_outside (s : Signal) {plane : Plane} (h : plane.Fits s.width s.wideWords) {p : Int}
    (hp : inside s.width p = false) : bitAt (s.stored plane) p = false := by
  have hout := of_decide_eq_false hp
  by_cases hneg : p < 0
  · exact bitAt_of_neg _ hneg
  · unfold Signal.stored
    split
    · exact h.clean p (by omega)
    · obtain ⟨k, rfl⟩ := Int.eq_ofNat_of_zero_le (Int.not_lt.mp hneg)
      by_cases hk : k < 64
      · rw [bitAt_singleton _ hk, BitVec.getLsbD_and, getLsbD_wordMask64 _ hk, decide_eq_false (by omega),
          Bool.and_false]
      · exact bitAt_of_length_le (by simp; omega)

/-- Word by word, the assignment takes what is stored at the positions of the slice. -/
theorem holds_assignWord (dst src : Signal) {plane : Plane} (h : plane.Fits src.width src.wideWords) (lsb : Int)
    (n : Nat) :
    ∃ words, (List.range (if 0 < dst.wideWords then dst.wideWords else 1)).mapM
        (assignWord (sigWord src plane) lsb n dst.width) = some words ∧
      Holds words (bitAt (src.stored plane)) lsb (min n dst.width) := by
  choose word hword hbits using reads_live h
  have hwidth := dst.width_le
  refine ⟨_, mapM_some (g := fun i : Nat => if (n : Int) - 64 * i ≤ 0 then 0
    else word (lsb + 64 * i) &&& wordMask64 (n - 64 * i) &&& wordMask64 (dst.width - 64 * i)) fun i _ => ?_,
    holds_map_range (by split <;> omega) fun i _ k hk => ?_⟩
  · unfold assignWord
    split
    · rfl
    · rw [hword]
      rfl
  · split
    · rw [decide_eq_false (by omega)]
      exact BitVec.getLsbD_zero
    · rw [BitVec.getLsbD_and, BitVec.getLsbD_and, hbits _ k hk, getLsbD_wordMask64 _ hk, getLsbD_wordMask64 _ hk,
        Bool.and_assoc, ← Bool.decide_and, Bool.and_comm]
      congr 1
      exact decide_eq_decide.mpr (by omega)

/-- An assigned slice is delivered exactly if all of it that the destination holds lies in the source. -/
theorem delivers_wholeAssign_iff (dst src : Signal) (lsb : Int) {n : Nat} (hn : 0 < n) :
    Delivers (wholeAssignSliceConstSignal dst src lsb n) src.width (src.bits src.val) (src.bits src.mask) lsb
        (min n dst.width) ↔ 0 ≤ lsb ∧ lsb + min n dst.width ≤ src.width := by
  obtain ⟨v, hv, hvbits⟩ := holds_assignWord dst src src.val_fits lsb n
  obtain ⟨m, hm, hmbits⟩ := holds_assignWord dst src src.mask_fits lsb n
  have hassign : wholeAssignSliceConstSignal dst src lsb n = some (v, m) := by
    simp only [wholeAssignSliceConstSignal, sigWordVal, sigWordMask, hv, hm]
    rfl
  have hpos := dst.width_pos
  constructor
  · rintro ⟨dv, dm, hresult, -, hmask⟩
    obtain ⟨rfl, rfl⟩ := Prod.mk.inj (Option.some.inj (hassign.symm.trans hresult))
    -- a position outside of the source is not marked, as nothing is stored there
    have hin : ∀ k : Nat, k < min n dst.width → inside src.width (lsb + k) = true := by
      intro k hk
      by_contra hout
      have hout := Bool.eq_false_iff.mpr hout
      have hstored := hmbits k
      rw [hmask k, decide_eq_true hk, selectMask, hout, bitAt_stored_of_outside src src.mask_fits hout] at hstored
      exact Bool.noConfusion hstored
    have hfirst := of_decide_eq_true (hin 0 (by omega))
    have hlast := of_decide_eq_true (hin (min n dst.width - 1) (by omega))
    omega
  · rintro ⟨hlow, hhigh⟩
    have hin : ∀ k : Nat, k < min n dst.width → inside src.width (lsb + k) = true := fun k hk =>
      decide_eq_true (by omega)
    refine ⟨v, m, hassign, fun k => ?_, fun k => ?_⟩
    · rw [hvbits k]
      by_cases hk : k < min n dst.width
      · rw [selectVal, hin k hk, bitAt_stored src _ (hin k hk), Bool.true_and]
      · rw [decide_eq_false hk, Bool.false_and, Bool.false_and]
    · rw [hmbits k]
      by_cases hk : k < min n dst.width
      · rw [selectMask, hin k hk, bitAt_stored src _ (hin k hk), Bool.not_true, Bool.false_or]
      · rw [decide_eq_false hk, Bool.false_and, Bool.false_and]

/-! ## All accessors -/

/-- Selects of `n` bits from any position on: of signals and of their snapshots, of memory elements and of theirs, as
words and as integers, they are delivered. The slice of scratch words is, exactly unless it starts more than a word in
front of them and off a word boundary, and the assigned slice is, exactly if all of it lies in its source. -/
theorem delivers_iff (s dst : Signal) (e : Element) (a : Scratch) (lsb : Int) (n nDst : Nat) (hn : 0 < n)
    (hdst : n ≤ 64 * nDst) :
    Delivers (select (sigExtractWordVal s) (sigExtractWordMask s) lsb n) s.width (s.bits s.val) (s.bits s.mask) lsb n ∧
    Delivers (select (sigExtractWordValSv s) (sigExtractWordMaskSv s) lsb n) s.width (s.bits s.snapVal)
      (s.bits s.snapMask) lsb n ∧
    Delivers (select (wmemExtractVal e) (wmemExtractMask e) lsb n) e.width (bitAt e.val) (bitAt e.mask) lsb n ∧
    Delivers (select (wmemExtractValSnap e) (wmemExtractMaskSnap e) lsb n) e.width (bitAt e.snapVal)
      (bitAt e.snapMask) lsb n ∧
    (∃ v m, wmemPyExtractVal e lsb n = some v ∧ wmemPyExtractMask e lsb n = some m ∧
      ∀ k, v.testBit k = (decide (k < n) && selectVal e.width (bitAt e.val) (lsb + k)) ∧
        m.testBit k = (decide (k < n) && selectMask e.width (bitAt e.mask) (lsb + k))) ∧
    (Delivers (selectSlice a lsb n nDst) a.width (bitAt a.val) (bitAt a.mask) lsb n ↔ -64 ≤ lsb ∨ lsb % 64 = 0) ∧
    (Delivers (wholeAssignSliceConstSignal dst s lsb n) s.width (s.bits s.val) (s.bits s.mask) lsb
      (min n dst.width) ↔ 0 ≤ lsb ∧ lsb + min n dst.width ≤ s.width) := by
  refine ⟨delivers_select (reads_sigExtractWordVal s) (reads_sigExtractWordMask s) lsb n,
    delivers_select (reads_sigExtractWordValSv s) (reads_sigExtractWordMaskSv s) lsb n,
    delivers_select (reads_wmemExtractVal e) (reads_wmemExtractMask e) lsb n,
    delivers_select (reads_wmemExtractValSnap e) (reads_wmemExtractMaskSnap e) lsb n, ?_,
    delivers_selectSlice_iff a lsb hn hdst, delivers_wholeAssign_iff dst s lsb hn⟩
  obtain ⟨v, hv, hvbits⟩ := testBit_pyExtract (reads_wmemExtractVal e) lsb n
  obtain ⟨m, hm, hmbits⟩ := testBit_pyExtract (reads_wmemExtractMask e) lsb n
  exact ⟨v, m, hv, hm, fun k => ⟨hvbits k, hmbits k⟩⟩

/-- A plane of zeros. -/
def zeroPlane (words : Nat) : Plane := ⟨0, List.replicate words 0⟩

theorem zeroPlane_fits (width words : Nat) : (zeroPlane words).Fits width words where
  length := List.length_replicate
  clean p _ := by
    have hword : wordAt (zeroPlane words).wide (p / 64) = 0 := by
      unfold wordAt zeroPlane
      split
      · rw [List.getD_eq_getElem?_getD, List.getElem?_replicate]
        split
        · rfl
        · rfl
      · rfl
    rw [bitAt, bitOf, hword]
    exact BitVec.getLsbD_zero

/-- A signal of 65 bits that is zero. -/
def zeros65 : Signal where
  width := 65
  wideWords := 2
  val := zeroPlane 2
  mask := zeroPlane 2
  snapVal := zeroPlane 2
  snapMask := zeroPlane 2
  width_pos := by decide
  width_le := by decide
  val_fits := zeroPlane_fits 65 2
  mask_fits := zeroPlane_fits 65 2
  snapVal_fits := zeroPlane_fits 65 2
  snapMask_fits := zeroPlane_fits 65 2

/-- A memory element of 65 bits that is zero. -/
def zeroElement65 : Element := ⟨65, 2, [0, 0], [0, 0], [0, 0], [0, 0], by decide, rfl, rfl, rfl, rfl⟩

/-- The last bit of a vector of 65 bits. -/
theorem delivers_last_bit :
    Delivers (select (sigExtractWordVal zeros65) (sigExtractWordMask zeros65) 64 1) 65 (zeros65.bits zeros65.val)
        (zeros65.bits zeros65.mask) 64 1 ∧
      Delivers (wholeAssignSliceConstSignal zeros65 zeros65 64 1) 65 (zeros65.bits zeros65.val)
        (zeros65.bits zeros65.mask) 64 1 := by
  obtain ⟨hlive, -, -, -, -, -, hassign⟩ :=
    delivers_iff zeros65 zeros65 zeroElement65 ⟨65, 2, [0, 0], [0, 0], rfl, rfl⟩ 64 1 1 (by decide) (by decide)
  exact ⟨hlive, hassign.mpr (by decide)⟩

/-- `assign y = a[65 +: 1]` for a vector of 65 bits makes `y` a known zero, and a slice that starts 65 bits in front of
its source reads in front of it. -/
theorem assign_past_end :
    ¬Delivers (wholeAssignSliceConstSignal zeros65 zeros65 65 1) 65 (zeros65.bits zeros65.val)
        (zeros65.bits zeros65.mask) 65 1 ∧
      wideSliceExtract [0, 0] [0, 0] (-65) 1 2 1 = none := by
  refine ⟨?_, rfl⟩
  rintro ⟨dv, dm, hresult, -, hmask⟩
  obtain ⟨rfl, rfl⟩ := Prod.mk.inj (Option.some.inj (show some (_, _) = some (dv, dm) from hresult))
  exact Bool.noConfusion (hmask 0)

end Veriforge.Compiled.Select
