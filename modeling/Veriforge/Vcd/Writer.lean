import Mathlib.Data.List.Sort
import Mathlib.Logic.Function.Basic
import Veriforge.Dict
import Veriforge.Text
import Veriforge.Value.Basic

/-! # Writing value change dumps

`VcdWriter` of `sim/vcd.py` for signals that are no reals. The file is the list of the lines written to it:
every `write` of the source ends one. A tree of scopes is a dictionary of dictionaries in the source, where
the key `_sig` holds a list; what raises there is `none` here. -/

namespace Veriforge.Vcd

/-! ## Signals -/

/-- `_VcdSignal` -/
structure Sig where
  name : Line
  width : Nat
  ident : Line
  scope : Line

/-- The characters of `_make_id` for the number `n`, the last one first in the source. -/
def makeId (n : Nat) : Line :=
  if n < 94 then [Char.ofNat (33 + n)] else makeId (n / 94) ++ [Char.ofNat (33 + n % 94)]
termination_by n
decreasing_by omega

theorem toNat_idChar {d : Nat} (h : d < 94) : (Char.ofNat (33 + d)).toNat = 33 + d := by
  revert d
  decide

theorem isSpace_idChar {d : Nat} (h : d < 94) : isSpace (Char.ofNat (33 + d)) = false := by
  revert d
  decide

theorem isToken_makeId (n : Nat) : IsToken (makeId n) := by
  induction n using Nat.strongRecOn with
  | ind n ih =>
    rw [makeId]
    split
    · next hn =>
      refine ⟨List.cons_ne_nil _ _, ?_⟩
      intro c hc
      rw [List.mem_singleton.mp hc]
      exact isSpace_idChar hn
    · next hn =>
      have hq := ih (n / 94) (by omega)
      refine ⟨fun h => hq.1 (List.append_eq_nil_iff.mp h).1, ?_⟩
      intro c hc
      rcases List.mem_append.mp hc with hc | hc
      · exact hq.2 c hc
      · rw [List.mem_singleton.mp hc]
        exact isSpace_idChar (Nat.mod_lt n (by decide))

/-- Different numbers have different identifiers. -/
theorem makeId_injective : Function.Injective makeId := by
  have hchar : ∀ {a b : Nat}, a < 94 → b < 94 → Char.ofNat (33 + a) = Char.ofNat (33 + b) → a = b := by
    intro a b ha hb h
    have hn := congrArg Char.toNat h
    rw [toNat_idChar ha, toNat_idChar hb] at hn
    omega
  -- an identifier of one character is none of several
  have hlen : ∀ {a b : Nat} {c : Char}, makeId (a / 94) ++ [Char.ofNat (33 + b)] ≠ [c] := by
    intro a b c h
    rw [List.append_eq_singleton_iff] at h
    rcases h with ⟨hnil, -⟩ | ⟨-, hnil⟩
    · exact (isToken_makeId _).1 hnil
    · exact absurd hnil (List.cons_ne_nil _ _)
  intro n
  induction n using Nat.strongRecOn with
  | ind n ih =>
    intro m h
    rw [makeId, makeId.eq_1 m] at h
    by_cases hn : n < 94 <;> by_cases hm : m < 94
    · rw [if_pos hn, if_pos hm] at h
      exact hchar hn hm (List.cons.inj h).1
    · rw [if_pos hn, if_neg hm] at h
      exact absurd h.symm hlen
    · rw [if_neg hn, if_pos hm] at h
      exact absurd h hlen
    · rw [if_neg hn, if_neg hm] at h
      obtain ⟨hq, hr⟩ := List.append_inj' h rfl
      have hq' := ih (n / 94) (by omega) hq
      have hr' := hchar (Nat.mod_lt n (by decide)) (Nat.mod_lt m (by decide)) (List.cons.inj hr).1
      omega

/-- `VcdWriter`: the fields that its methods read and set. `file` is what has been written. -/
structure VcdWriter where
  signals : List (Line × Sig)
  idCounter : Nat
  currentTime : Int
  timeWritten : Bool
  lastValues : Line → Option Line
  file : List Line

/-- `VcdWriter.__init__` -/
def VcdWriter.new : VcdWriter := ⟨[], 0, -1, false, fun _ => none, []⟩

/-- The arguments of `add_signal`. -/
structure Registration where
  name : Line
  width : Nat := 1
  scope : Line := "top".toList
  vcdName : Option Line := none

/-- `add_signal` -/
def VcdWriter.addSignal (w : VcdWriter) (r : Registration) : VcdWriter :=
  { w with
    idCounter := w.idCounter + 1
    signals := dictSet r.name ⟨r.vcdName.getD r.name, r.width, makeId (w.idCounter + 1), r.scope⟩
      w.signals }

/-! ## The tree of scopes -/

mutual

/-- What a key of the scope tree holds. -/
inductive Node
  | dict (entries : Entries)
  | sigs (sigs : List Sig)

/-- The entries of a dictionary in the order of their keys' first use. -/
inductive Entries
  | nil
  | cons (key : Line) (child : Node) (rest : Entries)

end

/-- The key under which a dictionary keeps the signals of its own scope. -/
def sigKey : Line := "_sig".toList

/-- `node.get(key)` -/
def Entries.get (key : Line) : Entries → Option Node
  | .nil => none
  | .cons k child rest => if k = key then some child else rest.get key

/-- `node[key] = child` -/
def Entries.set (key : Line) (child : Node) : Entries → Entries
  | .nil => .cons key child .nil
  | .cons k c rest => if k = key then .cons k child rest else .cons k c (rest.set key child)

/-- The walk down the segments of a scope, and `node["_sig"] = sigs` at its end. -/
def Node.insert (sigs : List Sig) : List Line → Node → Option Node
  | _, .sigs _ => none
  | [], .dict es => some (.dict (es.set sigKey (.sigs sigs)))
  | segment :: path, .dict es =>
      (Node.insert sigs path ((es.get segment).getD (.dict .nil))).map fun child =>
        .dict (es.set segment child)

/-- `child.get("_sig", [])` as the loop over signals goes through it: a key is no signal. -/
def Node.own : Node → Option (List Sig)
  | .sigs _ => none
  | .dict es =>
      match es.get sigKey with
      | none => some []
      | some (.sigs own) => some own
      | some (.dict .nil) => some []
      | some (.dict _) => none

/-- The `$var` line of a signal. -/
def varLine (sig : Sig) : Line :=
  unwords ["$var".toList, "wire".toList, Nat.toDigits 10 sig.width, sig.ident, sig.name, "$end".toList]

/-- The `$scope` line of a segment. -/
def scopeLine (segment : Line) : Line :=
  unwords ["$scope".toList, "module".toList, segment, "$end".toList]

/-- The `$upscope` line. -/
def upscopeLine : Line := unwords ["$upscope".toList, "$end".toList]

/-- Strings in the order of their code points. -/
def lineLe : Line → Line → Bool
  | [], _ => true
  | _ :: _, [] => false
  | c :: cs, d :: ds => c.toNat < d.toNat || (c == d && lineLe cs ds)

mutual

/-- `_emit`: the blocks of the keys in their sorted order. -/
def Node.emit : Node → Option (List Line)
  | .sigs _ => none
  | .dict es => es.blocks.map fun bs => (bs.insertionSort fun b b' => lineLe b.1 b'.1 = true).flatMap (·.2)

/-- The keys other than `_sig`, each with the lines written for it. -/
def Entries.blocks : Entries → Option (List (Line × List Line))
  | .nil => some []
  | .cons key child rest =>
      if key = sigKey then rest.blocks
      else
        child.own.bind fun sigs =>
          child.emit.bind fun inner =>
            rest.blocks.map fun more =>
              (key, scopeLine key :: (sigs.map varLine ++ (inner ++ [upscopeLine]))) :: more

end

/-- The signals by scope, as `write_header` groups them. -/
def scopesOf (signals : List (Line × Sig)) : List (Line × List Sig) :=
  signals.foldl (fun scopes e => dictSet e.2.scope ((dictGet e.2.scope scopes).getD [] ++ [e.2]) scopes) []

/-- The scope tree of `_write_scopes`. -/
def scopeTree (scopes : List (Line × List Sig)) : Option Node :=
  scopes.foldlM (fun node e => node.insert e.2 (e.1.splitOn '.')) (.dict .nil)

/-- `_write_scopes` -/
def writeScopes (scopes : List (Line × List Sig)) : Option (List Line) :=
  (scopeTree scopes).bind Node.emit

/-- The texts of the header that are not the signals'. -/
structure Preamble where
  now : Line
  timescale : Line
  now_line : '\n' ∉ now
  timescale_line : '\n' ∉ timescale

/-- The lines of the header around those of the signals. -/
def headerLines (p : Preamble) (body : List Line) : List Line :=
  ("$date ".toList ++ p.now ++ " $end".toList) :: "$version veriforge simulation $end".toList ::
    ("$timescale ".toList ++ p.timescale ++ " $end".toList) :: (body ++ ["$enddefinitions $end".toList])

/-- `write_header` -/
def VcdWriter.writeHeader (w : VcdWriter) (p : Preamble) : Option VcdWriter :=
  (writeScopes (scopesOf w.signals)).map fun body => { w with file := w.file ++ headerLines p body }

/-! ## Value changes -/

/-- `_raw_to_vcd` -/
def rawToVcd (v : Value) (width : Nat) : Line :=
  if v.mask = 0 then (Nat.toDigits 2 v.val).leftpad width '0'
  else (List.range width).reverse.map fun i =>
    if v.mask.testBit i then 'x' else if v.val.testBit i then '1' else '0'

/-- `_value_to_vcd` -/
def valueToVcd (v : Value) (width : Nat) : Line :=
  if width = 1 then
    if v.mask.testBit 0 then ['x'] else if v.val.testBit 0 then ['1'] else ['0']
  else rawToVcd v width

/-- `_line` -/
def changeLine (sig : Sig) (text : Line) : Line :=
  if sig.width = 1 then text ++ sig.ident else unwords ['b' :: text, sig.ident]

/-- The line `#time`. -/
def timeLine (time : Int) : Line :=
  '#' :: if time < 0 then '-' :: Nat.toDigits 10 time.natAbs else Nat.toDigits 10 time.natAbs

/-- `set_time` -/
def VcdWriter.setTime (w : VcdWriter) (time : Int) : VcdWriter :=
  { w with currentTime := time, timeWritten := false }

/-- `_ensure_timestamp` -/
def VcdWriter.ensureTimestamp (w : VcdWriter) : VcdWriter :=
  if w.timeWritten then w
  else { w with file := w.file ++ [timeLine w.currentTime], timeWritten := true }

/-- `change` -/
def VcdWriter.change (w : VcdWriter) (name : Line) (value : Value) : VcdWriter :=
  match dictGet name w.signals with
  | none => w
  | some sig =>
      let text := valueToVcd value sig.width
      if w.lastValues sig.ident = some text then w
      else
        let w := { w with lastValues := Function.update w.lastValues sig.ident (some text) }.ensureTimestamp
        { w with file := w.file ++ [changeLine sig text] }

/-- The loop of `dump_all`: the change lines, and the last values after it. -/
def dumpParts (values : Line → Option Value) :
    List (Line × Sig) → (Line → Option Line) → List Line × (Line → Option Line)
  | [], last => ([], last)
  | (name, sig) :: rest, last =>
      match values name with
      | none => dumpParts values rest last
      | some value =>
          let text := valueToVcd value sig.width
          if last sig.ident = some text then dumpParts values rest last
          else
            let (parts, last) := dumpParts values rest (Function.update last sig.ident (some text))
            (changeLine sig text :: parts, last)

/-- `dump_all` -/
def VcdWriter.dumpAll (w : VcdWriter) (time : Int) (values : Line → Option Value) : VcdWriter :=
  let w := w.setTime time
  let r := dumpParts values w.signals w.lastValues
  let w := { w with lastValues := r.2 }
  if r.1 = [] then w
  else { w with file := w.file ++ timeLine time :: r.1, timeWritten := true }

/-- A call that records something. -/
inductive Op
  | setTime (time : Nat)
  | change (name : Line) (value : Value)
  | dumpAll (time : Nat) (values : Line → Option Value)

/-- One call. -/
def VcdWriter.call (w : VcdWriter) : Op → VcdWriter
  | .setTime time => w.setTime time
  | .change name value => w.change name value
  | .dumpAll time values => w.dumpAll time values

/-- The writer with its signals registered. -/
def registered (rs : List Registration) : VcdWriter := rs.foldl VcdWriter.addSignal VcdWriter.new

/-- What registration sets up: nothing is written, and each signal has an identifier of its own. -/
theorem registered_inv (rs : List Registration) : let w := registered rs
    (w.currentTime = -1 ∧ w.timeWritten = false ∧ w.lastValues = (fun _ => none) ∧ w.file = []) ∧
      DistinctKeys w.signals ∧
      (∀ e ∈ w.signals, ∃ n ≤ w.idCounter, e.2.ident = makeId n) ∧
      ∀ e ∈ w.signals, ∀ e' ∈ w.signals, e.2.ident = e'.2.ident → e = e' := by
  induction rs using List.reverseRecOn with
  | nil =>
    refine ⟨⟨rfl, rfl, rfl, rfl⟩, List.nodup_nil, ?_, ?_⟩
    · exact fun e he => absurd he List.not_mem_nil
    · exact fun e he => absurd he List.not_mem_nil
  | append_singleton rs r ih =>
    obtain ⟨hinit, hkeys, hids, hinj⟩ := ih
    have hsnoc : registered (rs ++ [r]) = (registered rs).addSignal r := by
      rw [registered, List.foldl_append]
      rfl
    rw [hsnoc]
    refine ⟨hinit, hkeys.set _ _, ?_, ?_⟩
    · intro e he
      rcases mem_dictSet he with rfl | he
      · exact ⟨_, le_rfl, rfl⟩
      · obtain ⟨n, hn, hid⟩ := hids e he
        exact ⟨n, Nat.le_succ_of_le hn, hid⟩
    · -- the new identifier is that of a number not used before
      have hnew : ∀ e ∈ (registered rs).signals, e.2.ident ≠ makeId ((registered rs).idCounter + 1) := by
        intro e he h
        obtain ⟨n, hn, hid⟩ := hids e he
        have := makeId_injective (hid.symm.trans h)
        omega
      intro e he e' he' h
      rcases mem_dictSet he with rfl | he <;> rcases mem_dictSet he' with rfl | he'
      · rfl
      · exact absurd h.symm (hnew e' he')
      · exact absurd h (hnew e he)
      · exact hinj e he e' he' h

/-- The text of the file: signals are registered, the header is written, and calls are made. -/
def record (p : Preamble) (rs : List Registration) (ops : List Op) : Option Line :=
  ((registered rs).writeHeader p).map fun w =>
    (ops.foldl VcdWriter.call w).file.flatMap fun line => line ++ ['\n']

end Veriforge.Vcd
