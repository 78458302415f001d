import Veriforge.Compiled.DeltaLoop
import Veriforge.Compiled.Select

/-! # Snapshots of the memories

The copies of the memories that the generated code takes before an edge (`_mem_snapshot` of
`sim/compiled/_gen_sections.py`), with everything that writes a memory: the commit of the staged writes, the emitted
blocking writes (`_stmt_emitters.py`, `_wide_emitter.py`, `_gen_wide_section.py`), `mem_write`, `mem_write_wide` and
the events of `batch_run`. A memory of narrow elements keeps one word an element. -/

namespace Veriforge.Compiled.Snapshot

open Words Select

/-! ## Registered memories -/

/-- What the generator knows of signals and memories. -/
structure Codegen where
  signalMap : List (String × Nat)
  nSigs : Nat
  /-- The width of an element and the number of elements. -/
  memInfo : List (Nat × Nat)
  memMarkerSigs : List Nat

/-- `_register_signal` -/
def Codegen.registerSignal (g : Codegen) (name : String) : Codegen × Nat :=
  match g.signalMap.lookup name with
  | some sid => (g, sid)
  | none => ({ g with signalMap := (name, g.nSigs) :: g.signalMap, nSigs := g.nSigs + 1 }, g.nSigs)

/-- The name of the marker of a memory. -/
def markerName (mid : Nat) : String := "__mem_" ++ toString mid ++ "_wr"

/-- `_register_memory` -/
def Codegen.registerMemory (g : Codegen) (elemWidth depth : Nat) : Codegen :=
  let marker := { g with memInfo := g.memInfo ++ [(elemWidth, depth)] }.registerSignal (markerName g.memInfo.length)
  { marker.1 with memMarkerSigs := marker.1.memMarkerSigs ++ [marker.2] }

/-- What a module declares. -/
inductive Declaration
  | signal (name : String)
  | memory (elemWidth depth : Nat)

def Codegen.register (g : Codegen) : Declaration → Codegen
  | .signal name => (g.registerSignal name).1
  | .memory elemWidth depth => g.registerMemory elemWidth depth

/-- The generator after the declarations of a design. -/
def registered (declarations : List Declaration) : Codegen := declarations.foldl Codegen.register ⟨[], 0, [], []⟩

/-- What the snapshots are generated from. Each memory has a marker of its own. -/
structure Design where
  nMems : Nat
  elemWidth : Nat → Nat
  depth : Nat → Nat
  memMarkerSigs : Nat → Nat
  /-- The log of the queue engine. -/
  writeLog : Bool
  /-- The processes that alone marked a signal. -/
  owner : Bool
  memMarkerSigs_inj : ∀ i < nMems, ∀ j < nMems, memMarkerSigs i = memMarkerSigs j → i = j

namespace Design

variable (d : Design)

/-- `_mem_words`, or one word for an element that a `long long` holds. -/
def words (mid : Nat) : Nat := if 64 < d.elemWidth mid then (d.elemWidth mid + 63) / 64 else 1

/-- The slots of a memory, without the spare ones. -/
def slots (mid : Nat) : Nat := d.depth mid * d.words mid

/-- `_mem_journal_cap` -/
def memJournalCap (mid : Nat) : Nat := max 1 (min 256 (d.slots mid / 4))

/-- `NBA_MEM_RANGE_MAX`, from `_nba_mem_queue_bound` and `_nba_mem_queue_capacity` -/
def nbaMemRangeMax : Nat := 2 * max 64 (((List.range d.nMems).map d.depth).sum * 4)

end Design

/-! ## The context -/

/-- The arrays of a memory. -/
structure Memory where
  val : Nat → Word
  mask : Nat → Word
  snapVal : Nat → Word
  snapMask : Nat → Word
  /-- The entries of `memj` below `memj_n`. -/
  memj : List Nat

/-- An entry of the queue of staged writes. -/
structure MemRange where
  mid : Nat
  addr : Nat
  msb : Int
  lsb : Nat
  val : Word
  mask : Word

/-- `SimCtx`, as far as the memories concern it. -/
structure SimCtx where
  val : Nat → Word
  sdirty : Nat → Bool
  dbit : Nat → Bool
  dlist : List Nat
  downer : Nat → Int
  curProc : Int
  wmark : Nat → Nat
  wepoch : Nat
  wlog : List Nat
  mem : Nat → Memory
  /-- The entries below `nba_mem_range_count`. -/
  nbaMemRange : List MemRange
  errorCode : ErrorCode

variable (d : Design)

/-! ## Marks -/

/-- The lines of the write log. -/
def logWrite (c : SimCtx) (sid : Nat) : SimCtx :=
  if d.writeLog ∧ c.wmark sid ≠ c.wepoch then
    { c with wmark := Function.update c.wmark sid c.wepoch, wlog := c.wlog ++ [sid] }
  else c

/-- A bit of the dirty set, and who set it. -/
def setDbit (c : SimCtx) (sid : Nat) : SimCtx :=
  if !c.dbit sid then
    { c with
      dbit := Function.update c.dbit sid true
      downer := if d.owner then Function.update c.downer sid c.curProc else c.downer
      dlist := c.dlist ++ [sid] }
  else if d.owner ∧ c.downer sid ≠ c.curProc then { c with downer := Function.update c.downer sid (-1) }
  else c

/-- `mark_dirty_nosnap` -/
def markDirtyNosnap (c : SimCtx) (sid : Nat) : SimCtx := setDbit d (logWrite d c sid) sid

/-- `mark_dirty` -/
def markDirty (c : SimCtx) (sid : Nat) : SimCtx :=
  markDirtyNosnap d { c with sdirty := Function.update c.sdirty sid true } sid

/-- `c.val[marker] ^= 1` and the mark after it. -/
def touchMarker (c : SimCtx) (mid : Nat) : SimCtx :=
  let marker := d.memMarkerSigs mid
  markDirty d { c with val := Function.update c.val marker (c.val marker ^^^ 1) } marker

/-- `_mem_journal_lines` -/
def memJournal (c : SimCtx) (mid slot : Nat) : SimCtx :=
  let marker := d.memMarkerSigs mid
  let c :=
    if !c.sdirty marker then
      if (c.mem mid).memj.length < d.memJournalCap mid then
        { c with mem := Function.update c.mem mid { c.mem mid with memj := (c.mem mid).memj ++ [slot] } }
      else { c with sdirty := Function.update c.sdirty marker true }
    else c
  markDirtyNosnap d c marker

/-! ## The snapshot -/

/-- The copies of the slots in the journal. -/
def Memory.copySlots (m : Memory) : List Nat → Memory
  | [] => m
  | slot :: slots =>
      { m with
        snapVal := Function.update m.snapVal slot (m.val slot)
        snapMask := Function.update m.snapMask slot (m.mask slot) : Memory }.copySlots slots

/-- The `memcpy` of so many slots. -/
def Memory.copyAll (m : Memory) (n : Nat) : Memory :=
  { m with
    snapVal := fun i => if i < n then m.val i else m.snapVal i
    snapMask := fun i => if i < n then m.mask i else m.snapMask i }

/-- `_mem_snapshot`, for one memory. -/
def snapshotMemory (c : SimCtx) (mid : Nat) : SimCtx :=
  let marker := d.memMarkerSigs mid
  if c.sdirty marker then
    { c with
      mem := Function.update c.mem mid { (c.mem mid).copyAll (d.slots mid) with memj := [] }
      sdirty := Function.update c.sdirty marker false }
  else { c with mem := Function.update c.mem mid { (c.mem mid).copySlots (c.mem mid).memj with memj := [] } }

/-- `_mem_snapshot` -/
def memSnapshot (c : SimCtx) : SimCtx := (List.range d.nMems).foldl (snapshotMemory d) c

/-! ## Staged writes -/

/-- An entry that is staged, with `_nba_mem_push`. -/
def nbaMemPush (c : SimCtx) (e : MemRange) : SimCtx :=
  if c.nbaMemRange.length < d.nbaMemRangeMax - 1 then { c with nbaMemRange := c.nbaMemRange ++ [e] }
  else { c with errorCode := .nbaMemOverflow }

/-- `c.mem_val[slot] = v` -/
def setMemVal (c : SimCtx) (mid slot : Nat) (v : Word) : SimCtx :=
  { c with mem := Function.update c.mem mid { c.mem mid with val := Function.update (c.mem mid).val slot v } }

/-- `c.mem_mask[slot] = m` -/
def setMemMask (c : SimCtx) (mid slot : Nat) (m : Word) : SimCtx :=
  { c with mem := Function.update c.mem mid { c.mem mid with mask := Function.update (c.mem mid).mask slot m } }

/-- The commit of one entry. -/
def commitMemRange (c : SimCtx) (e : MemRange) : SimCtx :=
  let rmrMask := wordMask64 (e.msb - e.lsb + 1) <<< e.lsb
  if e.mid < d.nMems then
    let c := setMemVal c e.mid e.addr
      ((c.mem e.mid).val e.addr &&& ~~~rmrMask ||| ((e.val &&& ~~~e.mask) <<< e.lsb) &&& rmrMask)
    let c := setMemMask c e.mid e.addr
      ((c.mem e.mid).mask e.addr &&& ~~~rmrMask ||| (e.mask <<< e.lsb) &&& rmrMask)
    memJournal d c e.mid e.addr
  else c

/-- `_delta_nba_apply_lines`, its memory queue. -/
def deltaNbaApply (c : SimCtx) : SimCtx :=
  { c.nbaMemRange.foldl (commitMemRange d) c with nbaMemRange := [] }

/-! ## Blocking writes -/

/-- What an expression of the emitted code gives where it stands. -/
abbrev Emitted (α : Type) := SimCtx → α

/-- A store that is made, and remembered, where it changes a word. The emitted expressions stand in the test and in the
two assignments, and are evaluated anew in each. -/
structure WordStore where
  slot : Emitted Nat
  val : Emitted Word
  mask : Emitted Word

def WordStore.exec (mid : Nat) (w : WordStore) (c : SimCtx) : SimCtx × Bool :=
  if (c.mem mid).val (w.slot c) ≠ w.val c ∨ (c.mem mid).mask (w.slot c) ≠ w.mask c then
    let c := setMemVal c mid (w.slot c) (w.val c)
    (setMemMask c mid (w.slot c) (w.mask c), true)
  else (c, false)

/-- Stores one after the other, and whether one of them changed a word. What a store keeps in temporaries is evaluated
when its turn comes. -/
def storeWords (mid : Nat) : List (Emitted WordStore) → SimCtx → SimCtx × Bool
  | [], c => (c, false)
  | w :: ws, c =>
      let stored := (w c).exec mid c
      let rest := storeWords mid ws stored.1
      (rest.1, stored.2 || rest.2)

/-- The stores of a block or of a call, which takes its arguments first. -/
abbrev Stores := Emitted (List (Emitted WordStore))

/-- Blocks one after the other. -/
def storeBlocks (mid : Nat) : List Stores → SimCtx → SimCtx × Bool
  | [], c => (c, false)
  | ws :: blocks, c =>
      let stored := storeWords mid (ws c) c
      let rest := storeBlocks mid blocks stored.1
      (rest.1, stored.2 || rest.2)

/-- A blocking write: the stores, and the mark if one changed a word. -/
def blockingWrite (mid : Nat) (blocks : List Stores) (c : SimCtx) : SimCtx :=
  let stored := storeBlocks mid blocks c
  if stored.2 then touchMarker d stored.1 mid else stored.1

/-- A value and a mask. -/
abbrev Rhs := Emitted (Word × Word)

/-- A store of words that are in temporaries. -/
def storeOf (slot : Emitted Nat) (word : Rhs) : Emitted WordStore :=
  fun c => ⟨slot, fun _ => (word c).1, fun _ => (word c).2⟩

/-- An expression that is kept in a temporary from the start of the block on, where changes are tracked. -/
def held {α : Type} (trackChange : Bool) (e : Emitted α) : Emitted (Emitted α) :=
  fun c => if trackChange then fun _ => e c else e

/-! ### Narrow elements -/

/-- The words of a slot with some of their bits replaced. -/
def mergeWord (c : SimCtx) (mid slot : Nat) (bits : Word) (v m : Word) : Word × Word :=
  ((c.mem mid).val slot &&& ~~~bits ||| v &&& bits, (c.mem mid).mask slot &&& ~~~bits ||| m &&& bits)

/-- `_emit_scalar_mem_write_lines` -/
def scalarMemWrite (mid : Nat) (idx : Emitted Nat) (rhs : Rhs) : Stores := fun c =>
  let slot := idx c
  let elem := wordMask64 (d.elemWidth mid)
  [storeOf (fun _ => slot) fun c => ((rhs c).1 &&& ~~~(rhs c).2 &&& elem, (rhs c).2 &&& elem)]

/-- `_emit_const_mem_range_write_lines` of a narrow element. -/
def constMemRangeWrite (mid : Nat) (idx : Emitted Nat) (lsb selW : Nat) (rhs : Rhs) : Stores := fun c =>
  let slot := idx c
  let rangeMask := wordMask64 selW <<< lsb
  [storeOf (fun _ => slot) fun c =>
    mergeWord c mid slot rangeMask (((rhs c).1 &&& ~~~(rhs c).2) <<< lsb) ((rhs c).2 <<< lsb)]

/-- `_emit_dynamic_mem_range_write_lines` of a narrow element: only the bits within the element. -/
def dynamicMemRangeWrite (mid : Nat) (idx : Emitted Nat) (msb lsb : Emitted Int) (rhs : Rhs) : Stores := fun c =>
  let drop := (-lsb c).toNat
  let rmwLsb := (lsb c).toNat
  let rmwMsb := min (msb c) (d.elemWidth mid - 1)
  if rmwLsb ≤ rmwMsb ∧ drop < 64 then
    let slot := idx c
    let bits := wordMask64 (rmwMsb - rmwLsb + 1) <<< rmwLsb
    [storeOf (fun _ => slot) fun c =>
      let v := (rhs c).1 >>> drop
      let m := (rhs c).2 >>> drop
      mergeWord c mid slot bits ((v &&& ~~~m) <<< rmwLsb) (m <<< rmwLsb)]
  else []

/-- `_emit_mem_bit_write_lines`: a bit outside of the element writes nothing. A wide element is asked for the word of
the bit. -/
def memBitWrite (mid : Nat) (idx : Emitted Nat) (bit : Emitted Int) (rhs : Rhs) : Stores := fun c =>
  let bitOk := decide (0 ≤ bit c) && decide (bit c < d.elemWidth mid)
  let word := if 64 < d.elemWidth mid && bitOk then (bit c / 64).toNat else 0
  let pos := (bit c % 64).toNat
  let slot := idx c * d.words mid + word
  let bitMask : Word := if bitOk then 1 <<< pos else 0
  [storeOf (fun _ => slot) fun c =>
    let rval := (rhs c).1 &&& 1
    let m := (rhs c).2 &&& 1
    mergeWord c mid slot bitMask ((rval &&& ~~~m) <<< pos) (m <<< pos)]

/-! ### Wide elements -/

/-- A piece of a range that lies in one word. -/
structure Chunk where
  word : Int
  wordLsb : Nat
  width : Int
  /-- Where the piece begins in the source. -/
  srcShift : Int

/-- The pieces of the bits from `lo` to `hi`, of a source whose first bit stands at `base`. -/
def chunks (lo hi base : Int) : List Chunk :=
  (List.range (hi / 64 - lo / 64 + 1).toNat).map fun k : Nat =>
    let wordIndex := lo / 64 + k
    let chunkLsb := max lo (wordIndex * 64)
    let chunkMsb := min hi (wordIndex * 64 + 63)
    ⟨wordIndex, (chunkLsb - wordIndex * 64).toNat, chunkMsb - chunkLsb + 1, chunkLsb - base⟩

/-- The store of a piece in an element. -/
def insertChunk (mid : Nat) (addr : Emitted Nat) (k : Chunk) (src : Emitted (Int → Word × Word)) :
    Emitted WordStore :=
  let slot : Emitted Nat := fun c => (addr c * d.words mid + k.word).toNat
  storeOf slot fun c =>
    let chunkMask := wordMask64 k.width
    let v := (src c k.srcShift).1 &&& chunkMask
    let m := (src c k.srcShift).2 &&& chunkMask
    mergeWord c mid (slot c) (chunkMask <<< k.wordLsb) ((v &&& ~~~m) <<< k.wordLsb) (m <<< k.wordLsb)

/-- The bits of an `unsigned long long` from a position on. -/
def shifted (word : Word × Word) (k : Int) : Word × Word := (word.1 >>> k.toNat, word.2 >>> k.toNat)

/-- The bits of a `long long` from a position on. -/
def shiftedSigned (word : Word × Word) (k : Int) : Word × Word :=
  (word.1.sshiftRight k.toNat, word.2.sshiftRight k.toNat)

/-- `_emit_const_mem_range_write_lines` of a wide element. -/
def constWideMemRangeWrite (mid : Nat) (idx : Emitted Nat) (lsb selW : Nat) (rhs : Rhs) : Stores := fun _ =>
  (chunks lsb (lsb + selW - 1) lsb).map fun k => insertChunk d mid idx k fun c => shiftedSigned (rhs c)

/-- `_emit_wide_mem_dynamic_range_lines` -/
def wideMemDynamicRange (mid : Nat) (idx : Emitted Nat) (msb lsb : Emitted Int) (rhs : Rhs) : Stores := fun c =>
  let addr := idx c
  let lo := max (lsb c) 0
  let hi := min (msb c) (d.elemWidth mid - 1)
  if lo ≤ hi then
    (chunks lo hi (lsb c)).map fun k => insertChunk d mid (fun _ => addr) k fun c => shiftedSigned (rhs c)
  else []

/-- `_wmemN_assign_insert_signal_slice`: only the bits inside the element. -/
def wmemAssignInsertSignalSlice (mid : Nat) (idx : Emitted Nat) (dstLsb srcLsb srcWidth : Emitted Int)
    (signal : Emitted (Int → Word × Word)) : Stores := fun c =>
  let addr := idx c
  let dropped := max (-dstLsb c) 0
  let lo := dstLsb c + dropped
  let width := min (srcWidth c - dropped) (d.elemWidth mid - lo)
  let first := srcLsb c + dropped
  if 0 < srcWidth c ∧ 0 < width then
    (chunks lo (lo + width - 1) lo).map fun k =>
      insertChunk d mid (fun _ => addr) k fun c shift => signal c (first + shift)
  else []

/-- The pieces that the loop of `_wmemN_assign_insert_word` takes. -/
def insertWordChunks (bit remaining srcShift : Nat) : List Chunk :=
  if 0 < remaining then
    let chunk := min remaining (64 - bit % 64)
    ⟨(bit / 64 : Nat), bit % 64, chunk, srcShift⟩ :: insertWordChunks (bit + chunk) (remaining - chunk) (srcShift + chunk)
  else []
termination_by remaining
decreasing_by
  have hpos : 0 < 64 - bit % 64 := by omega
  omega

/-- `_wmemN_assign_insert_word` -/
def wmemAssignInsertWord (mid : Nat) (idx : Emitted Nat) (dstLsb width : Emitted Int) (word : Word × Word) : Stores :=
  fun c =>
    let addr := idx c
    let dropped := (-dstLsb c).toNat
    let lo := dstLsb c + dropped
    let width := min (width c - dropped) (d.elemWidth mid - lo)
    (insertWordChunks lo.toNat width.toNat 0).map fun k =>
      insertChunk d mid (fun _ => addr) k fun _ => shifted (shifted word dropped)

/-- `_emit_wide_mem_range_insert_lines`: the right hand side is computed into scratch words, then inserted in pieces of
64 bits. -/
def wideMemRangeInsert (mid : Nat) (idx : Emitted Nat) (lsb width : Emitted Int) (maxWidth : Nat)
    (scratch : Nat → Word × Word) : List Stores :=
  (List.range ((maxWidth + 63) / 64)).map fun k : Nat =>
    wmemAssignInsertWord d mid idx (fun c => lsb c + k * 64) (fun c => min (width c - k * 64) 64) (scratch k)

/-- `_wmemN_word_val` and `_wmemN_word_mask`, at an address. -/
def wmemWord (mid : Nat) (plane : Nat → Word) (addr : Nat) (wordIndex : Int) : Option Word :=
  if 0 ≤ wordIndex ∧ wordIndex < d.words mid then some (plane (addr * d.words mid + wordIndex.toNat)) else some 0

/-- `_wmemN_extract_val` and `_wmemN_extract_mask`, at an address. -/
def wmemExtract (mid addr : Nat) (c : SimCtx) (lsb : Int) : Word × Word :=
  let oor := oorBits (d.elemWidth mid) lsb
  ((extractVal oor (extractRaw (wmemWord d mid (c.mem mid).val addr) lsb)).getD 0,
    (extractMask oor (extractRaw (wmemWord d mid (c.mem mid).mask addr) lsb)).getD 0)

/-- `_emit_wide_mem_insert_mem_slice_lines` -/
def wideMemInsertMemSlice (mid : Nat) (idx : Emitted Nat) (dstLsb : Emitted Int) (rhsMid : Nat) (rhsIdx : Emitted Nat)
    (rhsLsb width : Emitted Int) : Stores := fun c =>
  let dstAddr := idx c
  let srcAddr := rhsIdx c
  let srcLsb := rhsLsb c
  if 0 < width c then
    (chunks (dstLsb c) (dstLsb c + width c - 1) (dstLsb c)).map fun k =>
      insertChunk d mid (fun _ => dstAddr) k fun c shift => wmemExtract d rhsMid srcAddr c (srcLsb + shift)
  else []

/-- `_emit_wide_mem_copy_lines` -/
def wideMemCopy (mid : Nat) (idx : Emitted Nat) (rhsMid : Nat) (rhsIdx : Emitted Nat) (trackChange : Bool) : Stores :=
  fun c =>
    let idx := held trackChange idx c
    let rhsIdx := held trackChange rhsIdx c
    (List.range (d.words mid)).map fun i _ =>
      ⟨fun c => idx c * d.words mid + i, fun c => (c.mem rhsMid).val (rhsIdx c * d.words mid + i),
        fun c => (c.mem rhsMid).mask (rhsIdx c * d.words mid + i)⟩

/-- `_emit_wide_mem_flat_concat_lines`: without a temporary for the index, the words are kept in temporaries. -/
def wideMemFlatConcat (mid : Nat) (idx : Emitted Nat) (word : Nat → Rhs) (trackChange : Bool) : Stores := fun c =>
  let idx := held trackChange idx c
  (List.range (d.words mid)).map fun i =>
    let slot : Emitted Nat := fun c => idx c * d.words mid + i
    if trackChange then fun _ => ⟨slot, fun c => (word i c).1, fun c => (word i c).2⟩ else storeOf slot (word i)

/-- `_emit_wide_mem_zero_lines` -/
def wideMemZero (mid : Nat) (idx : Emitted Nat) (trackChange : Bool) : Stores := fun c =>
  let idx := held trackChange idx c
  (List.range (d.words mid)).map fun i _ => ⟨fun c => idx c * d.words mid + i, fun _ => 0, fun _ => 0⟩

/-- `_emit_wide_mem_whole_write_lines`, from scratch words. -/
def wideMemWholeWrite (mid : Nat) (idx : Emitted Nat) (scratch : Nat → Word × Word) : Stores := fun c =>
  let mwi := idx c * d.words mid
  (List.range (d.words mid)).map fun i : Nat =>
    let tail := wordMask64 (min 64 (d.elemWidth mid - i * 64 : Int))
    storeOf (fun _ => mwi + i) fun _ => ((scratch i).1 &&& tail, (scratch i).2 &&& tail)

/-! ### Whole memories -/

/-- `_emit_whole_mem_copy_lines` -/
def wholeMemCopy (mid rhsMid : Nat) : Stores := fun _ =>
  if mid = rhsMid then []
  else (List.range (d.slots mid)).map fun slot _ =>
    ⟨fun _ => slot, fun c => (c.mem rhsMid).val slot, fun c => (c.mem rhsMid).mask slot⟩

/-- `_emit_whole_mem_ternary_lines` -/
def wholeMemTernary (mid : Nat) (cond : Emitted Bool) (trueMid falseMid : Nat) : Stores := fun c =>
  let rhsMid := if cond c then trueMid else falseMid
  (List.range (d.slots mid)).map fun slot =>
    storeOf (fun _ => slot) fun c => ((c.mem rhsMid).val slot, (c.mem rhsMid).mask slot)

/-! ### Their statements -/

/-- A blocking write of the emitted code. The words that are computed into scratch are evaluated before it. -/
inductive Write
  | scalar (idx : Emitted Nat) (rhs : Rhs)
  | constRange (idx : Emitted Nat) (lsb selW : Nat) (rhs : Rhs)
  | dynamicRange (idx : Emitted Nat) (msb lsb : Emitted Int) (rhs : Rhs)
  | elementBit (idx : Emitted Nat) (bit : Emitted Int) (rhs : Rhs)
  | constWideRange (idx : Emitted Nat) (lsb selW : Nat) (rhs : Rhs)
  | dynamicWideRange (idx : Emitted Nat) (msb lsb : Emitted Int) (rhs : Rhs)
  | signalSlice (idx : Emitted Nat) (dstLsb srcLsb srcWidth : Emitted Int) (signal : Emitted (Int → Word × Word))
  | rangeInsert (idx : Emitted Nat) (lsb width : Emitted Int) (maxWidth : Nat) (rhs : Nat → Rhs)
  | memSlice (idx : Emitted Nat) (dstLsb : Emitted Int) (rhsMid : Nat) (rhsIdx : Emitted Nat)
      (rhsLsb width : Emitted Int)
  | wideCopy (idx : Emitted Nat) (rhsMid : Nat) (rhsIdx : Emitted Nat) (trackChange : Bool)
  | flatConcat (idx : Emitted Nat) (word : Nat → Rhs) (trackChange : Bool)
  | zero (idx : Emitted Nat) (trackChange : Bool)
  | whole (idx : Emitted Nat) (rhs : Nat → Rhs)
  | memCopy (rhsMid : Nat)
  | memTernary (cond : Emitted Bool) (trueMid falseMid : Nat)

def Write.blocks (mid : Nat) (w : Write) (c : SimCtx) : List Stores :=
  match w with
  | .scalar idx rhs => [scalarMemWrite d mid idx rhs]
  | .constRange idx lsb selW rhs => [constMemRangeWrite mid idx lsb selW rhs]
  | .dynamicRange idx msb lsb rhs => [dynamicMemRangeWrite d mid idx msb lsb rhs]
  | .elementBit idx bit rhs => [memBitWrite d mid idx bit rhs]
  | .constWideRange idx lsb selW rhs => [constWideMemRangeWrite d mid idx lsb selW rhs]
  | .dynamicWideRange idx msb lsb rhs => [wideMemDynamicRange d mid idx msb lsb rhs]
  | .signalSlice idx dstLsb srcLsb srcWidth signal =>
      [wmemAssignInsertSignalSlice d mid idx dstLsb srcLsb srcWidth signal]
  | .rangeInsert idx lsb width maxWidth rhs => wideMemRangeInsert d mid idx lsb width maxWidth fun k => rhs k c
  | .memSlice idx dstLsb rhsMid rhsIdx rhsLsb width =>
      [wideMemInsertMemSlice d mid idx dstLsb rhsMid rhsIdx rhsLsb width]
  | .wideCopy idx rhsMid rhsIdx trackChange => [wideMemCopy d mid idx rhsMid rhsIdx trackChange]
  | .flatConcat idx word trackChange => [wideMemFlatConcat d mid idx word trackChange]
  | .zero idx trackChange => [wideMemZero d mid idx trackChange]
  | .whole idx rhs => [wideMemWholeWrite d mid idx fun i => rhs i c]
  | .memCopy rhsMid => [wholeMemCopy d mid rhsMid]
  | .memTernary cond trueMid falseMid => [wholeMemTernary d mid cond trueMid falseMid]

/-! ## Writes from outside -/

/-- `<long long>v` of a Python integer, which is refused where it does not fit. -/
def toLongLong (v : Int) : Option Word := if -(2 ^ 63) ≤ v ∧ v < 2 ^ 63 then some (BitVec.ofInt 64 v) else none

/-- The stores of the words of an element. -/
def setElement (c : SimCtx) (mid addr : Nat) (word : Nat → Word × Word) : SimCtx :=
  (List.range (d.words mid)).foldl (fun c i =>
    setMemMask (setMemVal c mid (addr * d.words mid + i) (word i).1) mid (addr * d.words mid + i) (word i).2) c

/-- `mem_write`: a wide element gets `x`. -/
def memWrite (c : SimCtx) (mid addr : Nat) (v m : Word) : SimCtx :=
  if mid < d.nMems then
    if 64 < d.elemWidth mid then
      touchMarker d (setElement d c mid addr fun i => (0, wordMask64 (d.elemWidth mid - i * 64 : Int))) mid
    else touchMarker d (setMemMask (setMemVal c mid addr v) mid addr m) mid
  else c

/-- `mem_write_wide`: `none` is the `OverflowError` of a conversion, which the call ends with. -/
def memWriteWide (c : SimCtx) (mid addr : Nat) (v m : Int) : Option SimCtx :=
  if mid < d.nMems then
    if 64 < d.elemWidth mid then
      some (touchMarker d (setElement d c mid addr fun i =>
        (BitVec.ofInt 64 (v / 2 ^ (i * 64)), BitVec.ofInt 64 (m / 2 ^ (i * 64)))) mid)
    else do
      let v ← toLongLong v
      let m ← toLongLong m
      some (touchMarker d (setMemMask (setMemVal c mid addr v) mid addr m) mid)
  else some c

/-- An event of `batch_run`, which only narrow memories take. -/
def memEvent (c : SimCtx) (mid addr : Nat) (v : Word) : SimCtx :=
  if mid < d.nMems ∧ d.elemWidth mid ≤ 64 then
    touchMarker d (setMemMask (setMemVal c mid addr v) mid addr 0) mid
  else c

/-! ## Runs -/

/-- What happens to the memories of a simulation. -/
inductive Event
  | blocking (mid : Nat) (w : Write)
  | stage (e : Emitted MemRange)
  | commit
  | memWrite (mid addr : Nat) (v m : Word)
  | memWriteWide (mid addr : Nat) (v m : Int)
  | memEvent (mid addr : Nat) (v : Word)
  /-- A mark of any other signal. -/
  | mark (sid : Nat)
  | snapshot

/-- A call that raises ends the run. -/
def step (c : SimCtx) : Event → Option SimCtx
  | .blocking mid w => some (blockingWrite d mid (w.blocks d mid c) c)
  | .stage e => some (nbaMemPush d c (e c))
  | .commit => some (deltaNbaApply d c)
  | .memWrite mid addr v m => some (memWrite d c mid addr v m)
  | .memWriteWide mid addr v m => memWriteWide d c mid addr v m
  | .memEvent mid addr v => some (memEvent d c mid addr v)
  | .mark sid => some (markDirty d c sid)
  | .snapshot => some (memSnapshot d c)

/-- The arrays of a memory when the simulation starts. The spare slots are `x`, in the copy too. -/
def initMemory (twoState : Nat → Bool) (mid : Nat) : Memory :=
  let xBits : Nat → Word := fun i => wordMask64 (d.elemWidth mid - (i % d.words mid) * 64 : Int)
  { val := fun _ => 0
    mask := fun i => if i < d.slots mid ∧ twoState mid then 0 else xBits i
    snapVal := fun _ => 0
    snapMask := fun i => if i < d.slots mid then 0 else xBits i
    memj := [] }

/-- `CompiledSim.__init__`: every signal starts marked for the snapshots. -/
def init (twoState : Nat → Bool) : SimCtx where
  val _ := 0
  sdirty _ := true
  dbit _ := false
  dlist := []
  downer _ := -1
  curProc := -1
  wmark _ := 0
  wepoch := 1
  wlog := []
  mem := initMemory d twoState
  nbaMemRange := []
  errorCode := .none

/-- A run from the start of a simulation. -/
def run (twoState : Nat → Bool) (events : List Event) : Option SimCtx := events.foldlM (step d) (init d twoState)

end Veriforge.Compiled.Snapshot
