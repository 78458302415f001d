import Veriforge.Compiled.Snapshot
import Veriforge.Runs
import Veriforge.Shadow

/-! # Snapshots are exact

Each memory with its snapshot is a store with a copy: the marker in `sdirty` says that any slot may differ, `memj` is
the journal. Every writer either journals the slot that it writes or marks the marker, so a snapshot that copies the
slots of the journal only leaves no difference. -/

namespace Veriforge.Compiled.Snapshot

open Words Select

variable (d : Design)

/-! ## Markers -/

/-- What is registered under a name: a number of its own. -/
structure Codegen.Numbered (g : Codegen) : Prop where
  lt : ∀ {name sid}, g.signalMap.lookup name = some sid → sid < g.nSigs
  inj : ∀ {name name' sid}, g.signalMap.lookup name = some sid → g.signalMap.lookup name' = some sid → name = name'

/-- What the registrations keep: the marker of each memory is registered under a name of its own. -/
structure Codegen.Sound (g : Codegen) : Prop extends g.Numbered where
  length : g.memMarkerSigs.length = g.memInfo.length
  marker : ∀ {mid sid}, g.memMarkerSigs[mid]? = some sid → g.signalMap.lookup (markerName mid) = some sid

theorem markerName_inj {i j : Nat} (h : markerName i = markerName j) : i = j := by
  have hlist := congrArg String.toList h
  simp only [markerName, String.toList_append, List.append_cancel_right_eq, List.append_cancel_left_eq,
    String.toList_inj] at hlist
  have hdigits : Nat.toDigits 10 i = Nat.toDigits 10 j := by
    rw [← Nat.toList_repr, ← Nat.toList_repr]
    exact congrArg String.toList hlist
  rw [← Nat.ofDigitChars_ten_toDigits (n := i), hdigits, Nat.ofDigitChars_ten_toDigits]

namespace Codegen

variable {g : Codegen}

theorem lookup_registerSignal (name : String) :
    (g.registerSignal name).1.signalMap.lookup name = some (g.registerSignal name).2 := by
  unfold registerSignal
  split
  · assumption
  · exact List.lookup_cons_self

/-- A registration leaves the names that are registered. -/
theorem lookup_of_lookup (name : String) {name' : String} {sid : Nat} (h : g.signalMap.lookup name' = some sid) :
    (g.registerSignal name).1.signalMap.lookup name' = some sid := by
  unfold registerSignal
  split
  · exact h
  · next hnone =>
    have hne : name' ≠ name := by
      rintro rfl
      rw [h] at hnone
      cases hnone
    rw [List.lookup_cons, beq_false_of_ne hne]
    exact h

theorem Numbered.registerSignal (h : g.Numbered) (name : String) : (g.registerSignal name).1.Numbered := by
  unfold Codegen.registerSignal
  split
  · exact h
  · refine ⟨fun {name' sid} hl => ?_, fun {n n' sid} hl hl' => ?_⟩
    · rw [List.lookup_cons] at hl
      split at hl
      · cases hl
        exact Nat.lt_succ_self _
      · exact Nat.lt_succ_of_lt (h.lt hl)
    · rw [List.lookup_cons] at hl hl'
      -- the new number is above all that were given
      split at hl <;> split at hl'
      · next hn _ hn' => exact (beq_iff_eq.mp hn).trans (beq_iff_eq.mp hn').symm
      · cases hl
        exact absurd (h.lt hl') (Nat.lt_irrefl _)
      · cases hl'
        exact absurd (h.lt hl) (Nat.lt_irrefl _)
      · exact h.inj hl hl'

@[simp] theorem memInfo_registerSignal (name : String) : (g.registerSignal name).1.memInfo = g.memInfo := by
  unfold registerSignal
  split <;> rfl

@[simp] theorem memMarkerSigs_registerSignal (name : String) :
    (g.registerSignal name).1.memMarkerSigs = g.memMarkerSigs := by
  unfold registerSignal
  split <;> rfl

theorem Sound.registerSignal (h : g.Sound) (name : String) : (g.registerSignal name).1.Sound where
  toNumbered := h.toNumbered.registerSignal name
  length := by rw [memMarkerSigs_registerSignal, memInfo_registerSignal, h.length]
  marker hm := lookup_of_lookup name (h.marker (by rwa [memMarkerSigs_registerSignal] at hm))

theorem Sound.registerMemory (h : g.Sound) (elemWidth depth : Nat) : (g.registerMemory elemWidth depth).Sound := by
  set g' : Codegen := { g with memInfo := g.memInfo ++ [(elemWidth, depth)] } with hg'
  have hnumbered : g'.Numbered := ⟨h.lt, h.inj⟩
  have hnew := lookup_registerSignal (g := g') (markerName g.memInfo.length)
  have hregistered := hnumbered.registerSignal (markerName g.memInfo.length)
  refine ⟨⟨hregistered.lt, hregistered.inj⟩, ?_, fun {mid sid} hm => ?_⟩
  · simp [Codegen.registerMemory, h.length]
  · have hm' : (g.memMarkerSigs ++ [(g'.registerSignal (markerName g.memInfo.length)).2])[mid]? = some sid := by
      simpa [Codegen.registerMemory] using hm
    rcases Nat.lt_trichotomy mid g.memMarkerSigs.length with hlt | rfl | hgt
    · rw [List.getElem?_append_left hlt] at hm'
      exact lookup_of_lookup (g := g') _ (h.marker hm')
    · rw [List.getElem?_concat_length, Option.some.injEq] at hm'
      rw [h.length, ← hm']
      exact hnew
    · rw [List.getElem?_eq_none (by simp; omega)] at hm'
      cases hm'

theorem sound_registered (declarations : List Declaration) : (registered declarations).Sound := by
  unfold registered
  induction declarations using List.reverseRecOn with
  | nil => exact ⟨⟨fun h => by simp at h, fun h => by simp at h⟩, rfl, fun h => by simp at h⟩
  | append_singleton declarations declaration ih =>
    rw [List.foldl_concat]
    rcases declaration with name | ⟨elemWidth, depth⟩
    · exact ih.registerSignal name
    · exact ih.registerMemory elemWidth depth

end Codegen

/-- The design that is generated from declarations. -/
def designOf (declarations : List Declaration) (writeLog owner : Bool) : Design where
  nMems := (registered declarations).memInfo.length
  elemWidth mid := ((registered declarations).memInfo.getD mid (0, 0)).1
  depth mid := ((registered declarations).memInfo.getD mid (0, 0)).2
  memMarkerSigs mid := (registered declarations).memMarkerSigs.getD mid 0
  writeLog := writeLog
  owner := owner
  memMarkerSigs_inj i hi j hj heq := by
    have hsound := Codegen.sound_registered declarations
    rw [← hsound.length] at hi hj
    have hmarker : ∀ k, k < (registered declarations).memMarkerSigs.length →
        (registered declarations).signalMap.lookup (markerName k) =
          some ((registered declarations).memMarkerSigs.getD k 0) := fun k hk =>
      hsound.marker (by rw [List.getD_eq_getElem _ _ hk, List.getElem?_eq_getElem hk])
    exact markerName_inj (hsound.inj (hmarker i hi) (heq ▸ hmarker j hj))

/-! ## A memory as a store with a copy -/

/-- What the snapshots know of a memory. -/
def shadow (c : SimCtx) (mid : Nat) : Shadow Nat (Word × Word) where
  live i := ((c.mem mid).val i, (c.mem mid).mask i)
  copy i := ((c.mem mid).snapVal i, (c.mem mid).snapMask i)
  stale := c.sdirty (d.memMarkerSigs mid)
  journal := (c.mem mid).memj

/-- The slots that a snapshot keeps. -/
abbrev Kept (mid i : Nat) : Prop := i < d.slots mid

/-- What every writer keeps: where a memory differs from its snapshot is known. -/
def Tracked (c : SimCtx) : Prop := ∀ mid < d.nMems, (shadow d c mid).Covered (Kept d mid)

variable {d}

@[simp] theorem sdirty_markDirtyNosnap (c : SimCtx) (sid : Nat) : (markDirtyNosnap d c sid).sdirty = c.sdirty := by
  unfold markDirtyNosnap setDbit logWrite
  split_ifs <;> rfl

@[simp] theorem mem_markDirtyNosnap (c : SimCtx) (sid : Nat) : (markDirtyNosnap d c sid).mem = c.mem := by
  unfold markDirtyNosnap setDbit logWrite
  split_ifs <;> rfl

@[simp] theorem sdirty_markDirty (c : SimCtx) (sid : Nat) :
    (markDirty d c sid).sdirty = Function.update c.sdirty sid true := by
  unfold markDirty
  rw [sdirty_markDirtyNosnap]

@[simp] theorem mem_markDirty (c : SimCtx) (sid : Nat) : (markDirty d c sid).mem = c.mem := by
  unfold markDirty
  rw [mem_markDirtyNosnap]

@[simp] theorem shadow_markDirtyNosnap (c : SimCtx) (sid mid : Nat) :
    shadow d (markDirtyNosnap d c sid) mid = shadow d c mid := by
  simp only [shadow, sdirty_markDirtyNosnap, mem_markDirtyNosnap]

/-- A memory whose arrays stay as they are, while marks are only set. -/
theorem covered_of_mem_eq {c c' : SimCtx} {mid : Nat} (hmem : c'.mem mid = c.mem mid)
    (hmark : c.sdirty (d.memMarkerSigs mid) = true → c'.sdirty (d.memMarkerSigs mid) = true)
    (h : (shadow d c mid).Covered (Kept d mid)) : (shadow d c' mid).Covered (Kept d mid) := by
  intro hstale i hi hne
  have hstale' : c.sdirty (d.memMarkerSigs mid) = false := by
    by_contra hdirty
    have hdirty' := hmark (Bool.eq_true_of_not_eq_false hdirty)
    rw [show c'.sdirty (d.memMarkerSigs mid) = false from hstale] at hdirty'
    cases hdirty'
  have hsame : (shadow d c' mid).live = (shadow d c mid).live ∧ (shadow d c' mid).copy = (shadow d c mid).copy ∧
      (shadow d c' mid).journal = (shadow d c mid).journal := by
    simp only [shadow, hmem, and_self]
  rw [hsame.1, hsame.2.1] at hne
  rw [hsame.2.2]
  exact h hstale' i hi hne

theorem Tracked.markDirty {c : SimCtx} (h : Tracked d c) (sid : Nat) : Tracked d (markDirty d c sid) := by
  intro mid hmid
  refine covered_of_mem_eq (by rw [mem_markDirty]) (fun hdirty => ?_) (h mid hmid)
  rw [sdirty_markDirty, Function.update_apply, hdirty, ite_self]

/-- Where only one memory was written to, without a mark yet. -/
structure Touched (mid : Nat) (c c' : SimCtx) : Prop where
  sdirty : c'.sdirty = c.sdirty
  mem : ∀ other, other ≠ mid → c'.mem other = c.mem other

namespace Touched

variable {mid : Nat} {c c₁ c₂ : SimCtx}

theorem refl (mid : Nat) (c : SimCtx) : Touched mid c c := ⟨rfl, fun _ _ => rfl⟩

theorem trans (h : Touched mid c c₁) (h' : Touched mid c₁ c₂) : Touched mid c c₂ :=
  ⟨h'.sdirty.trans h.sdirty, fun other hne => (h'.mem other hne).trans (h.mem other hne)⟩

theorem setMemVal (h : Touched mid c c₁) (slot : Nat) (v : Word) : Touched mid c (setMemVal c₁ mid slot v) :=
  h.trans ⟨rfl, fun _ hne => Function.update_of_ne hne _ _⟩

theorem setMemMask (h : Touched mid c c₁) (slot : Nat) (m : Word) : Touched mid c (setMemMask c₁ mid slot m) :=
  h.trans ⟨rfl, fun _ hne => Function.update_of_ne hne _ _⟩

/-- The mark after the writes. -/
theorem tracked_touchMarker (h : Touched mid c c₁) (hc : Tracked d c) : Tracked d (touchMarker d c₁ mid) := by
  intro other hother
  by_cases hne : other = mid
  · subst hne
    refine Shadow.covered_of_stale ?_
    simp only [shadow, touchMarker, sdirty_markDirty, Function.update_self]
  · refine covered_of_mem_eq ?_ (fun hdirty => ?_) (hc other hother)
    · rw [touchMarker, mem_markDirty]
      exact h.mem other hne
    · rw [← h.sdirty] at hdirty
      simp only [touchMarker, sdirty_markDirty, Function.update_apply, hdirty, ite_self]

end Touched

theorem touched_setMem (c : SimCtx) (mid slot : Nat) (v m : Word) :
    Touched mid c (setMemMask (setMemVal c mid slot v) mid slot m) :=
  ((Touched.refl mid c).setMemVal slot v).setMemMask slot m

/-! ## Blocking writes -/

/-- What stores do: they write one memory, and nothing at all where they report no change. -/
structure Reported (mid : Nat) (c : SimCtx) (stored : SimCtx × Bool) : Prop where
  touched : Touched mid c stored.1
  same : stored.2 = false → stored.1 = c

theorem reported_exec (mid : Nat) (w : WordStore) (c : SimCtx) : Reported mid c (w.exec mid c) := by
  unfold WordStore.exec
  split
  · exact ⟨((Touched.refl mid c).setMemVal _ _).setMemMask _ _, fun h => by cases h⟩
  · exact ⟨Touched.refl mid c, fun _ => rfl⟩

/-- Stores and then more stores. -/
theorem Reported.andThen {mid : Nat} {c : SimCtx} {stored rest : SimCtx × Bool} (h : Reported mid c stored)
    (h' : Reported mid stored.1 rest) : Reported mid c (rest.1, stored.2 || rest.2) :=
  ⟨h.touched.trans h'.touched, fun hfalse => by
    obtain ⟨hstored, hrest⟩ := Bool.or_eq_false_iff.mp hfalse
    exact (h'.same hrest).trans (h.same hstored)⟩

theorem reported_storeWords (mid : Nat) (ws : List (Emitted WordStore)) (c : SimCtx) :
    Reported mid c (storeWords mid ws c) := by
  induction ws generalizing c with
  | nil => exact ⟨Touched.refl mid c, fun _ => rfl⟩
  | cons w ws ih => exact (reported_exec mid (w c) c).andThen (ih _)

theorem reported_storeBlocks (mid : Nat) (blocks : List Stores) (c : SimCtx) :
    Reported mid c (storeBlocks mid blocks c) := by
  induction blocks generalizing c with
  | nil => exact ⟨Touched.refl mid c, fun _ => rfl⟩
  | cons ws blocks ih => exact (reported_storeWords mid (ws c) c).andThen (ih _)

theorem Tracked.blockingWrite {c : SimCtx} (h : Tracked d c) (mid : Nat) (blocks : List Stores) :
    Tracked d (blockingWrite d mid blocks c) := by
  have hstored := reported_storeBlocks mid blocks c
  simp only [Snapshot.blockingWrite]
  split
  · exact hstored.touched.tracked_touchMarker h
  · next hsame => rwa [hstored.same (Bool.eq_false_iff.mpr hsame)]

/-! ## Staged writes -/

/-- A slot that is written. -/
theorem shadow_setMem (c : SimCtx) (mid slot : Nat) (v m : Word) :
    shadow d (setMemMask (setMemVal c mid slot v) mid slot m) mid = (shadow d c mid).store slot (v, m) := by
  have hlive : (fun i => (Function.update (c.mem mid).val slot v i, Function.update (c.mem mid).mask slot m i)) =
      Function.update (fun i => ((c.mem mid).val i, (c.mem mid).mask i)) slot (v, m) := by
    funext i
    by_cases hi : i = slot
    · simp [hi]
    · simp [hi]
  simp [shadow, setMemVal, setMemMask, Shadow.store, hlive]

/-- The journal lines do what a journal does. -/
theorem shadow_memJournal (c : SimCtx) (mid slot : Nat) :
    shadow d (memJournal d c mid slot) mid = (shadow d c mid).note (d.memJournalCap mid) slot := by
  unfold memJournal
  rw [shadow_markDirtyNosnap]
  by_cases hstale : c.sdirty (d.memMarkerSigs mid) = true
  · simp [Shadow.note, shadow, hstale]
  · have hnote : (shadow d c mid).note (d.memJournalCap mid) slot =
        if (c.mem mid).memj.length < d.memJournalCap mid then
          { shadow d c mid with journal := (c.mem mid).memj ++ [slot] }
        else (shadow d c mid).invalidate := if_neg hstale
    have hclean : (!c.sdirty (d.memMarkerSigs mid)) = true := by rw [Bool.eq_false_iff.mpr hstale, Bool.not_false]
    rw [hnote, if_pos hclean]
    split_ifs with hcap
    · simp [shadow]
    · simp [shadow, Shadow.invalidate]

theorem memJournal_mem_of_ne (c : SimCtx) {mid other : Nat} (hne : other ≠ mid) (slot : Nat) :
    (memJournal d c mid slot).mem other = c.mem other := by
  unfold memJournal
  rw [mem_markDirtyNosnap]
  split_ifs <;> simp [hne]

theorem sdirty_memJournal (c : SimCtx) (mid slot : Nat) {sid : Nat} (h : c.sdirty sid = true) :
    (memJournal d c mid slot).sdirty sid = true := by
  unfold memJournal
  rw [sdirty_markDirtyNosnap]
  split_ifs <;> simp [Function.update_apply, h]

theorem Tracked.commitMemRange {c : SimCtx} (h : Tracked d c) (e : MemRange) : Tracked d (commitMemRange d c e) := by
  unfold Snapshot.commitMemRange
  split
  · intro other hother
    by_cases hne : other = e.mid
    · -- the slot that is written is the one that is noted
      subst hne
      rw [shadow_memJournal, shadow_setMem]
      exact (h e.mid hother).note_store _ _ _
    · refine covered_of_mem_eq (c := c) ?_ (fun hdirty => sdirty_memJournal _ _ _ hdirty) (h other hother)
      rw [memJournal_mem_of_ne _ hne]
      exact (touched_setMem c e.mid e.addr _ _).mem other hne
  · exact h

theorem Tracked.deltaNbaApply {c : SimCtx} (h : Tracked d c) : Tracked d (deltaNbaApply d c) := by
  have hrun : ∀ (es : List MemRange) (c : SimCtx), Tracked d c → Tracked d (es.foldl (Snapshot.commitMemRange d) c) := by
    intro es
    induction es with
    | nil => exact fun _ h => h
    | cons e es ih => exact fun c h => ih _ (h.commitMemRange e)
  exact hrun c.nbaMemRange c h

/-! ## Writes from outside -/

theorem touched_setElement (c : SimCtx) (mid addr : Nat) (word : Nat → Word × Word) :
    Touched mid c (setElement d c mid addr word) := by
  unfold setElement
  induction List.range (d.words mid) using List.reverseRecOn with
  | nil => exact Touched.refl mid c
  | append_singleton is i ih =>
    rw [List.foldl_concat]
    exact (ih.setMemVal _ _).setMemMask _ _

theorem Tracked.memWrite {c : SimCtx} (h : Tracked d c) (mid addr : Nat) (v m : Word) :
    Tracked d (memWrite d c mid addr v m) := by
  unfold Snapshot.memWrite
  split_ifs
  · exact (touched_setElement c mid addr _).tracked_touchMarker h
  · exact (touched_setMem c mid addr v m).tracked_touchMarker h
  · exact h

theorem Tracked.memWriteWide {c c' : SimCtx} (h : Tracked d c) {mid addr : Nat} {v m : Int}
    (hwrite : memWriteWide d c mid addr v m = some c') : Tracked d c' := by
  unfold Snapshot.memWriteWide at hwrite
  split_ifs at hwrite
  · cases hwrite
    exact (touched_setElement c mid addr _).tracked_touchMarker h
  · obtain ⟨v', -, hwrite⟩ := Option.bind_eq_some_iff.mp hwrite
    obtain ⟨m', -, hwrite⟩ := Option.bind_eq_some_iff.mp hwrite
    cases hwrite
    exact (touched_setMem c mid addr v' m').tracked_touchMarker h
  · cases hwrite
    exact h

theorem Tracked.memEvent {c : SimCtx} (h : Tracked d c) (mid addr : Nat) (v : Word) :
    Tracked d (memEvent d c mid addr v) := by
  unfold Snapshot.memEvent
  split
  · exact (touched_setMem c mid addr v 0).tracked_touchMarker h
  · exact h

/-! ## The snapshot -/

/-- The slots of the journal are copied, the others stay. -/
theorem copySlots_eq (m : Memory) (slots : List Nat) : m.copySlots slots = { m with
        snapVal := fun i => if i ∈ slots then m.val i else m.snapVal i
        snapMask := fun i => if i ∈ slots then m.mask i else m.snapMask i } := by
  induction slots generalizing m with
  | nil => simp [Memory.copySlots]
  | cons slot slots ih =>
    rw [Memory.copySlots, ih]
    congr 1
    · funext i
      by_cases hi : i = slot
      · simp [hi]
      · simp [hi]
    · funext i
      by_cases hi : i = slot
      · simp [hi]
      · simp [hi]

/-- The snapshot of a memory brings its copy up to date. -/
theorem shadow_snapshotMemory_self (c : SimCtx) (mid : Nat) :
    shadow d (snapshotMemory d c mid) mid = (shadow d c mid).sync (Kept d mid) := by
  unfold snapshotMemory Shadow.sync
  by_cases hstale : c.sdirty (d.memMarkerSigs mid) = true
  · have hcopy : (fun i => (if i < d.slots mid then (c.mem mid).val i else (c.mem mid).snapVal i,
        if i < d.slots mid then (c.mem mid).mask i else (c.mem mid).snapMask i)) =
        fun i => if Kept d mid i then ((c.mem mid).val i, (c.mem mid).mask i)
          else ((c.mem mid).snapVal i, (c.mem mid).snapMask i) := by
      funext i
      split <;> rfl
    simp [shadow, hstale, Memory.copyAll, hcopy]
  · have hcopy : (fun i => (if i ∈ (c.mem mid).memj then (c.mem mid).val i else (c.mem mid).snapVal i,
        if i ∈ (c.mem mid).memj then (c.mem mid).mask i else (c.mem mid).snapMask i)) =
        fun i => if i ∈ (c.mem mid).memj then ((c.mem mid).val i, (c.mem mid).mask i)
          else ((c.mem mid).snapVal i, (c.mem mid).snapMask i) := by
      funext i
      split <;> rfl
    simp [shadow, hstale, copySlots_eq, hcopy]

/-- The marker of a memory is no one else's, so its snapshot leaves the other memories alone. -/
theorem shadow_snapshotMemory_of_ne (c : SimCtx) {mid other : Nat} (hmid : mid < d.nMems) (hother : other < d.nMems)
    (hne : other ≠ mid) : shadow d (snapshotMemory d c mid) other = shadow d c other := by
  have hmarker : d.memMarkerSigs other ≠ d.memMarkerSigs mid :=
    fun heq => hne (d.memMarkerSigs_inj other hother mid hmid heq)
  unfold snapshotMemory
  by_cases hstale : c.sdirty (d.memMarkerSigs mid) = true
  · simp [shadow, hstale, hne, hmarker]
  · simp [shadow, hstale, hne]

/-- A snapshot brings the copy of every memory up to date. -/
theorem shadow_memSnapshot (c : SimCtx) {mid : Nat} (hmid : mid < d.nMems) :
    shadow d (memSnapshot d c) mid = (shadow d c mid).sync (Kept d mid) := by
  have hrun : ∀ n ≤ d.nMems, shadow d ((List.range n).foldl (snapshotMemory d) c) mid =
      if mid < n then (shadow d c mid).sync (Kept d mid) else shadow d c mid := by
    intro n hn
    induction n with
    | zero => rfl
    | succ n ih =>
      rw [List.range_succ, List.foldl_concat]
      by_cases hself : mid = n
      · subst hself
        rw [shadow_snapshotMemory_self, ih (by omega), if_neg (Nat.lt_irrefl _), if_pos (Nat.lt_succ_self _)]
      · rw [shadow_snapshotMemory_of_ne _ hn hmid hself, ih (by omega)]
        have hlt : mid < n + 1 ↔ mid < n := by omega
        simp only [hlt]
  rw [memSnapshot, hrun d.nMems le_rfl, if_pos hmid]

theorem Tracked.memSnapshot {c : SimCtx} (h : Tracked d c) : Tracked d (memSnapshot d c) := by
  intro mid hmid
  rw [shadow_memSnapshot c hmid]
  exact (h mid hmid).sync

/-! ## Runs -/

theorem tracked_init (twoState : Nat → Bool) : Tracked d (init d twoState) :=
  fun _ _ => Shadow.covered_of_stale rfl

theorem Tracked.step {c c' : SimCtx} (h : Tracked d c) {e : Event} (hstep : step d c e = some c') : Tracked d c' := by
  unfold Snapshot.step at hstep
  cases e with
  | memWriteWide mid addr v m => exact h.memWriteWide hstep
  | blocking mid w =>
    cases hstep
    exact h.blockingWrite mid _
  | stage e =>
    cases hstep
    unfold nbaMemPush
    split <;> exact h
  | commit =>
    cases hstep
    exact h.deltaNbaApply
  | memWrite mid addr v m =>
    cases hstep
    exact h.memWrite mid addr v m
  | memEvent mid addr v =>
    cases hstep
    exact h.memEvent mid addr v
  | mark sid =>
    cases hstep
    exact h.markDirty sid
  | snapshot =>
    cases hstep
    exact h.memSnapshot

theorem tracked_run {twoState : Nat → Bool} {events : List Event} {c : SimCtx}
    (hrun : run d twoState events = some c) : Tracked d c := by
  unfold run at hrun
  induction events using List.reverseRecOn generalizing c with
  | nil =>
    cases hrun
    exact tracked_init twoState
  | append_singleton events e ih =>
    rw [foldlM_concat] at hrun
    obtain ⟨c', hrun', hstep⟩ := Option.bind_eq_some_iff.mp hrun
    exact (ih hrun').step hstep

/-- A narrow memory of a design with a clock. -/
def oneMemory : Design := designOf [.signal "clk", .memory 8 16] false false

/-- The byte `7` is staged for slot 3 after a first snapshot, so the second one copies that slot alone. -/
def oneCommit : List Event := [.snapshot, .stage fun _ => ⟨0, 3, 7, 0, 7, 0⟩, .commit]

end Veriforge.Compiled.Snapshot
