import MyShell.Lib.CBuffer
import MyShell.Scheduler
import Mathlib.Algebra.Order.Group.Nat
import Mathlib.Data.List.Induction

/-! # The execution trace

`g_trace` and `g_trace_len` of `scheduler.c`, and what can be read off them. `schedulerAppendTrace` in
`Scheduler` is the text of the trace alone; here the text is written to its array. -/

namespace MyShell

open CBuffer

structure Trace where
  chars : Buffer Char 4096
  len : UInt64

def traceEntry (taskId secondsRun : Int) : CString :=
  "P".toList ++ decimal taskId ++ "-(".toList ++ decimal secondsRun ++ ")".toList

namespace Trace

def schedulerInit (g : Trace) : Option Trace := (write g.chars 0 [NUL]).map fun chars => ⟨chars, 0⟩

def separate (g : Trace) : Option Trace :=
  if g.len ≠ 0 then (write g.chars g.len.toNat ['-']).map fun chars => ⟨chars, g.len + 1⟩ else some g

/-- `none` when it writes outside the array. -/
def schedulerAppendTrace (taskId secondsRun : Int32) (g : Trace) : Option Trace :=
  if g.len + 32 < 4096 then do
    let g ← g.separate
    let entry := traceEntry taskId.toInt secondsRun.toInt
    let n := entry.length
    let chars ← snprintf NUL g.chars g.len.toNat (4096 - g.len).toNat entry
    let len := if 0 < n then g.len + n.toUInt64 else g.len
    let chars ← write chars len.toNat [NUL]
    some ⟨chars, len⟩
  else some g

def schedulerGetTrace (g : Trace) : CString := text NUL g.chars

def after (g : Trace) (calls : List (Int32 × Int32)) : Option Trace :=
  g.schedulerInit.bind fun g => calls.foldlM (fun g call => g.schedulerAppendTrace call.1 call.2) g

end Trace

/-- What a trace is meant to be. -/
def renderTrace (pairs : List (Int × Int)) : CString := "-".toList.intercalate (pairs.map fun pair => traceEntry pair.1 pair.2)

/-! ### Lengths -/

theorem decimal_length (n : Int32) : (decimal n.toInt).length ≤ 11 := by
  have low := n.le_toInt
  have high := n.toInt_lt
  have digits : (Nat.toDigits 10 n.toInt.natAbs).length ≤ 10 := by
    rw [Nat.length_toDigits_le_iff (by decide) (by decide)]
    omega
  unfold decimal
  split
  · exact Nat.succ_le_succ digits
  · exact Nat.le_succ_of_le digits

theorem decimal_short {n : Int} (low : -2 ^ 31 ≤ n) (high : n ≤ INT_MAX) : (decimal n).length ≤ 11 := by
  have same : (Int32.ofInt n).toInt = n := Int32.toInt_ofInt_of_le low (Int.lt_of_le_of_lt high (by decide))
  exact same ▸ decimal_length (Int32.ofInt n)

theorem not_mem_decimal {d : Char} (sign : d ≠ '-') (letter : d.isDigit = false) (n : Int) : d ∉ decimal n := by
  have digits : d ∉ Nat.toDigits 10 n.natAbs := fun member => by
    simp [List.all_eq_true.mp (toDigits_digits n.natAbs) d member] at letter
  unfold decimal
  split
  · exact List.not_mem_cons_of_ne_of_not_mem sign digits
  · exact digits

theorem traceEntry_length (taskId secondsRun : Int32) : (traceEntry taskId.toInt secondsRun.toInt).length ≤ 26 := by
  have first := decimal_length taskId
  have second := decimal_length secondsRun
  simp [traceEntry]
  omega

theorem decimal_visible (n : Int) : NUL ∉ decimal n := by
  have digits : NUL ∉ Nat.toDigits 10 n.natAbs := fun member => by
    have digit := List.all_eq_true.mp (toDigits_digits n.natAbs) NUL member
    exact absurd digit (by decide)
  unfold decimal
  split
  · exact List.not_mem_cons_of_ne_of_not_mem (by decide) digits
  · exact digits

theorem traceEntry_visible (taskId secondsRun : Int) : NUL ∉ traceEntry taskId secondsRun := by
  have first := decimal_visible taskId
  have second := decimal_visible secondsRun
  simp [traceEntry, first, second]
  decide

/-! ### The array -/

/-- The array holds the text, and the length is its length. -/
structure Holds (g : Trace) (trace : CString) : Prop where
  chars : trace ++ [NUL] <+: g.chars.elems
  len : g.len.toNat = trace.length
  visible : NUL ∉ trace

variable {g g' : Trace} {trace : CString} {taskId secondsRun : Int32}

namespace Holds

theorem text (held : Holds g trace) : g.schedulerGetTrace = trace := text_of_prefix held.chars held.visible

theorem start (g : Trace) : ∃ g', g.schedulerInit = some g' ∧ Holds g' [] := by
  obtain ⟨chars, written, ends⟩ := write_behind (b := g.chars) [NUL] List.nil_prefix (by decide)
  refine ⟨⟨chars, 0⟩, ?_, ends, rfl, List.not_mem_nil⟩
  rw [Trace.schedulerInit, ← List.length_nil (α := Char), written]
  rfl

theorem separate (held : Holds g trace) (room : trace.length + 32 < 4096) :
    ∃ g', g.separate = some g' ∧ (if trace.length ≠ 0 then trace ++ "-".toList else trace) <+: g'.chars.elems ∧
      g'.len.toNat = (if trace.length ≠ 0 then trace ++ "-".toList else trace).length := by
  have before : trace <+: g.chars.elems := (List.prefix_append ..).trans held.chars
  have same : g.len ≠ 0 ↔ trace.length ≠ 0 := by
    rw [← held.len, ne_eq, ne_eq, ← UInt64.toNat_inj]
    rfl
  unfold Trace.separate
  by_cases some : g.len ≠ 0
  · have fits : trace.length + ['-'].length ≤ 4096 := by
      rw [List.length_singleton]
      omega
    obtain ⟨chars, written, longer⟩ := write_behind _ before fits
    rw [if_pos some, if_pos (same.mp some), held.len, written]
    refine ⟨_, rfl, longer, ?_⟩
    rw [UInt64.toNat_add, held.len, List.length_append]
    simp
    omega
  · rw [if_neg some, if_neg (mt same.mpr some)]
    exact ⟨g, rfl, before, held.len⟩

theorem step (held : Holds g trace) (taskId secondsRun : Int32) : ∃ g', g.schedulerAppendTrace taskId secondsRun = some g' ∧
    Holds g' (schedulerAppendTrace trace taskId.toInt secondsRun.toInt) := by
  have guard : g.len + 32 < 4096 ↔ trace.length + 32 < 4096 := by
    have fits := held.chars.length_le
    rw [g.chars.size, List.length_append] at fits
    rw [UInt64.lt_iff_toNat_lt, UInt64.toNat_add, held.len]
    simp at fits ⊢
    omega
  unfold Trace.schedulerAppendTrace schedulerAppendTrace
  by_cases room : trace.length + 32 < 4096
  · rw [if_pos (guard.mpr room), if_pos room]
    obtain ⟨g₁, separated, before, len⟩ := held.separate room
    have visible : NUL ∉ if trace.length ≠ 0 then trace ++ "-".toList else trace := by
      split
      · exact fun member => (List.mem_append.mp member).elim held.visible (by decide)
      · exact held.visible
    have short : (if trace.length ≠ 0 then trace ++ "-".toList else trace).length < 4065 := by
      split
      · rw [List.length_append, String.length_toList]
        change _ + 1 < _
        omega
      · omega
    generalize (if trace.length ≠ 0 then trace ++ "-".toList else trace) = trace₁ at before len visible short ⊢
    have small := traceEntry_length taskId secondsRun
    have unseen := traceEntry_visible taskId.toInt secondsRun.toInt
    change ∃ g', _ ∧ Holds g' (trace₁ ++ traceEntry taskId.toInt secondsRun.toInt)
    have some : 0 < (traceEntry taskId.toInt secondsRun.toInt).length := by simp [traceEntry]
    generalize traceEntry taskId.toInt secondsRun.toInt = entry at small unseen some ⊢
    have size : (4096 - g₁.len).toNat = 4096 - trace₁.length := by
      rw [UInt64.toNat_sub_of_le _ _ (UInt64.le_iff_toNat_le.mpr (by rw [len]; simp; omega)), len]
      rfl
    have total : (g₁.len + entry.length.toUInt64).toNat = (trace₁ ++ entry).length := by
      rw [UInt64.toNat_add, len, List.length_append]
      simp
      omega
    obtain ⟨chars, printed, longer⟩ := snprintf_behind NUL before
      (show entry.length < 4096 - trace₁.length by omega) (by omega)
    obtain ⟨chars', ended, whole⟩ := write_behind [NUL] ((List.prefix_append ..).trans longer) (by
      rw [List.length_append, List.length_singleton]
      omega)
    refine ⟨⟨chars', g₁.len + entry.length.toUInt64⟩, ?_, whole, total, ?_⟩
    · rw [separated]
      simp only [Option.bind_eq_bind, Option.bind_some]
      rw [len, size, printed, if_pos some, Option.bind_some, total, ended]
      rfl
    · exact fun member => (List.mem_append.mp member).elim visible unseen
  · rw [if_neg (mt guard.mp room), if_neg room]
    exact ⟨g, rfl, held⟩

end Holds

/-! ### The text -/

variable {pairs pairs' : List (Int × Int)} {pair pair' : Int × Int} {c d : Char} {r r' : CString}

theorem renderTrace_cons : renderTrace (pair :: pairs)
    = traceEntry pair.1 pair.2 ++ if pairs = [] then [] else '-' :: renderTrace pairs := by
  cases pairs with
  | nil => simp [renderTrace]
  | cons next rest => simp [renderTrace]

theorem renderTrace_empty : (renderTrace pairs).length = 0 ↔ pairs = [] := by
  cases pairs with
  | nil => exact iff_of_true rfl rfl
  | cons pair pairs =>
    rw [renderTrace_cons]
    simp [traceEntry]

theorem renderTrace_append : renderTrace (pairs ++ [pair])
    = (if (renderTrace pairs).length ≠ 0 then renderTrace pairs ++ "-".toList else renderTrace pairs)
      ++ traceEntry pair.1 pair.2 := by
  simp only [ne_eq, renderTrace_empty]
  induction pairs with
  | nil => simp [renderTrace]
  | cons first rest ih =>
    rw [if_pos (List.cons_ne_nil _ _), List.cons_append, renderTrace_cons, renderTrace_cons, ih,
      if_neg (List.append_ne_nil_of_right_ne_nil _ (List.cons_ne_nil _ _))]
    by_cases last : rest = []
    · subst last
      simp [renderTrace]
    · simp [last]

theorem toDigits_append {m n : Nat} (left : c.isDigit = false) (right : d.isDigit = false)
    (same : Nat.toDigits 10 m ++ c :: r = Nat.toDigits 10 n ++ d :: r') : m = n ∧ c :: r = d :: r' := by
  have cut (k : Nat) {c : Char} (rest : CString) (stop : c.isDigit = false) :
      (Nat.toDigits 10 k ++ c :: rest).takeWhile Char.isDigit = Nat.toDigits 10 k := by
    rw [List.takeWhile_append_of_pos (List.all_eq_true.mp (toDigits_digits k))]
    simp [stop]
  have digits : Nat.toDigits 10 m = Nat.toDigits 10 n := by
    rw [← cut m r left, same, cut n r' right]
  refine ⟨?_, List.append_cancel_left (digits ▸ same)⟩
  calc
    m = Nat.ofDigitChars 10 (Nat.toDigits 10 m) 0 := Nat.ofDigitChars_ten_toDigits.symm
    _ = Nat.ofDigitChars 10 (Nat.toDigits 10 n) 0 := by rw [digits]
    _ = n := Nat.ofDigitChars_ten_toDigits

theorem decimal_append {m n : Int} (left : c.isDigit = false) (right : d.isDigit = false)
    (same : decimal m ++ c :: r = decimal n ++ d :: r') : m = n ∧ c :: r = d :: r' := by
  have unsigned (k : Nat) (rest rest' : CString) : '-' :: rest ≠ Nat.toDigits 10 k ++ rest' := by
    have digits := toDigits_digits k
    obtain ⟨digit, more, split⟩ := List.exists_cons_of_ne_nil (Nat.toDigits_ne_nil (n := k) (b := 10))
    rw [split] at digits ⊢
    intro same
    have sign := List.all_eq_true.mp digits digit List.mem_cons_self
    rw [← (List.cons.inj same).1] at sign
    exact absurd sign (by decide)
  unfold decimal at same
  split at same <;> split at same
  · obtain ⟨abs, rest⟩ := toDigits_append left right (List.cons.inj same).2
    exact ⟨by omega, rest⟩
  · exact absurd same (unsigned _ _ _)
  · exact absurd same.symm (unsigned _ _ _)
  · obtain ⟨abs, rest⟩ := toDigits_append left right same
    exact ⟨by omega, rest⟩

theorem traceEntry_append (same : traceEntry pair.1 pair.2 ++ r = traceEntry pair'.1 pair'.2 ++ r') :
    pair = pair' ∧ r = r' := by
  have split (pair : Int × Int) (r : CString) :
      traceEntry pair.1 pair.2 ++ r = 'P' :: (decimal pair.1 ++ '-' :: '(' :: (decimal pair.2 ++ ')' :: r)) := by
    simp [traceEntry]
  rw [split, split] at same
  obtain ⟨first, same⟩ := decimal_append (by decide) (by decide) (List.cons.inj same).2
  obtain ⟨second, same⟩ := decimal_append (by decide) (by decide) (List.cons.inj (List.cons.inj same).2).2
  exact ⟨Prod.ext first second, (List.cons.inj same).2⟩

theorem renderTrace_injective : Function.Injective renderTrace := by
  intro pairs pairs' same
  induction pairs generalizing pairs' with
  | nil =>
    have empty := renderTrace_empty.mp (congrArg List.length same.symm)
    exact empty.symm
  | cons pair pairs ih =>
    cases pairs' with
    | nil => exact renderTrace_empty.mp (congrArg List.length same)
    | cons pair' pairs' =>
      rw [renderTrace_cons, renderTrace_cons] at same
      obtain ⟨rfl, rest⟩ := traceEntry_append same
      congr 1
      split at rest <;> split at rest
      · rename_i last last'
        rw [last, last']
      · exact nomatch rest
      · exact nomatch rest
      · exact ih (List.cons.inj rest).2

/-! ### Whole runs -/

def traced (calls : List (Int32 × Int32)) : List (Int × Int) := calls.map fun call => (call.1.toInt, call.2.toInt)

variable {calls : List (Int32 × Int32)}

/-- Up to the `k`th call all are recorded, and none after it. -/
structure Recorded (g : Trace) (calls : List (Int32 × Int32)) (k : Nat) : Prop where
  within : k ≤ calls.length
  holds : ∀ j ≤ calls.length, ∃ g', g.after (calls.take j) = some g' ∧ Holds g' (renderTrace (traced (calls.take (min j k))))
  full : k < calls.length → 4064 ≤ (renderTrace (traced (calls.take k))).length

theorem after_append (call : Int32 × Int32) :
    g.after (calls ++ [call]) = (g.after calls).bind fun g => g.schedulerAppendTrace call.1 call.2 := by
  unfold Trace.after
  cases g.schedulerInit with
  | none => rfl
  | some g => simp [List.foldlM_append]

theorem recorded (g : Trace) (calls : List (Int32 × Int32)) : ∃ k, Recorded g calls k := by
  induction calls using List.reverseRecOn with
  | nil =>
    obtain ⟨g', started, empty⟩ := Holds.start g
    refine ⟨0, Nat.le_refl 0, fun j _ => ⟨g', ?_, by simpa [traced, renderTrace] using empty⟩, nofun⟩
    simp [Trace.after, started]
  | append_singleton calls call ih =>
    obtain ⟨k, recorded⟩ := ih
    obtain ⟨g₁, ran, held⟩ := recorded.holds calls.length (Nat.le_refl _)
    rw [List.take_length] at ran
    rw [Nat.min_eq_right recorded.within] at held
    obtain ⟨g₂, called, held'⟩ := held.step call.1 call.2
    have last : g.after (calls ++ [call]) = some g₂ := by rw [after_append, ran, Option.bind_some, called]
    have earlier {j : Nat} (below : j ≤ calls.length) : (calls ++ [call]).take j = calls.take j :=
      List.take_append_of_le_length below
    have length : (calls ++ [call]).length = calls.length + 1 := List.length_append
    by_cases room : (renderTrace (traced (calls.take k))).length + 32 < 4096
    · have all : k = calls.length := by
        by_contra short
        have full := recorded.full (Nat.lt_of_le_of_ne recorded.within short)
        omega
      subst all
      refine ⟨calls.length + 1, Nat.le_of_eq length.symm, fun j below => ?_, fun short => by omega⟩
      rw [length] at below
      rw [Nat.min_eq_left below]
      rcases Nat.le_succ_iff.mp below with inside | rfl
      · rw [earlier inside]
        simpa [Nat.min_eq_left inside] using recorded.holds j inside
      · rw [List.take_of_length_le (Nat.le_of_eq length)]
        refine ⟨g₂, last, ?_⟩
        rw [List.take_length] at held' room
        rw [schedulerAppendTrace, if_pos room] at held'
        rw [traced, List.map_append, List.map_singleton, renderTrace_append]
        exact held'
    · have within : k ≤ (calls ++ [call]).length := by
        rw [length]
        exact Nat.le_succ_of_le recorded.within
      refine ⟨k, within, fun j below => ?_, fun _ => ?_⟩
      · rw [length] at below
        rcases Nat.le_succ_iff.mp below with inside | rfl
        · rw [earlier inside, earlier (Nat.le_trans (Nat.min_le_left j k) inside)]
          exact recorded.holds j inside
        · rw [List.take_of_length_le (Nat.le_of_eq length), Nat.min_eq_right (Nat.le_succ_of_le recorded.within),
            earlier recorded.within]
          refine ⟨g₂, last, ?_⟩
          rwa [schedulerAppendTrace, if_neg room] at held'
      · rw [earlier recorded.within]
        omega

/-- The trace is an exact log until it is full: no call writes outside the array, up to the `k`th all calls
are recorded and none later, and they can be read back. -/
theorem trace_exact (g : Trace) (calls : List (Int32 × Int32)) : ∃ k ≤ calls.length,
    (∀ j ≤ calls.length, ∃ g', g.after (calls.take j) = some g' ∧
      g'.len.toNat = g'.schedulerGetTrace.length ∧ g'.chars.elems[g'.len.toNat]? = some NUL ∧
      g'.schedulerGetTrace = renderTrace (traced (calls.take (min j k))) ∧
      ∀ pairs, renderTrace pairs = g'.schedulerGetTrace → pairs = traced (calls.take (min j k))) ∧
    ∀ j ≤ calls.length, (∀ i < j, ∀ g', g.after (calls.take i) = some g' → g'.schedulerGetTrace.length < 4064) → j ≤ k := by
  obtain ⟨k, recorded⟩ := recorded g calls
  refine ⟨k, recorded.within, fun j below => ?_, fun j below short => ?_⟩
  · obtain ⟨g', ran, held⟩ := recorded.holds j below
    refine ⟨g', ran, by rw [held.text, held.len], ?_, held.text, fun pairs same => ?_⟩
    · obtain ⟨rest, chars⟩ := held.chars
      rw [held.len, ← chars]
      simp
    · rw [held.text] at same
      exact renderTrace_injective same
  · by_contra later
    have k_lt := Nat.lt_of_not_le later
    obtain ⟨g', ran, held⟩ := recorded.holds k recorded.within
    have before := short k k_lt g' ran
    have full := recorded.full (Nat.lt_of_lt_of_le k_lt below)
    rw [held.text, Nat.min_self] at before
    omega

end MyShell
