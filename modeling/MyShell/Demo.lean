import MyShell.Scheduler
import Mathlib.Data.List.TakeWhile

/-! # The demo program

`demo.c` as a program of its own, and the reading of its argument in a `demo N` command. -/

namespace MyShell

/-- What a program leaves: its exit status and the text of its two streams. -/
structure Exit where
  status : Int
  stdout : CString := []
  stderr : CString := []

def demoLoop (seconds i : Int) : CString :=
  if i ≤ seconds then
    "Demo ".toList ++ decimal i ++ "/".toList ++ decimal seconds ++ "\n".toList ++ demoLoop seconds (i + 1)
  else []
termination_by (seconds + 1 - i).toNat

def demoMain : List CString → Exit
  | [] => { status := 1, stderr := "usage: demo <seconds>\n".toList }
  | arg :: _ =>
    let seconds := atoi arg
    if seconds ≤ 0 then { status := 1, stderr := "Error: seconds must be positive\n".toList }
    else { status := 0, stdout := demoLoop seconds 0 }

def demoLines (burst : Int) (n : Nat) : CString := (List.range n).flatMap fun i => demoLine i burst

@[simp] theorem demoLines_zero (burst : Int) : demoLines burst 0 = [] := rfl

theorem demoLines_succ (burst : Int) (n : Nat) : demoLines burst (n + 1) = demoLines burst n ++ demoLine n burst := by
  simp [demoLines, List.range_succ]

theorem demoLines_append_loop {seconds : Int} {i : Nat} (below : (i : Int) ≤ seconds + 1) :
    demoLines seconds i ++ demoLoop seconds i = demoLines seconds (seconds + 1).toNat := by
  generalize left : (seconds + 1).toNat - i = n
  induction n generalizing i with
  | zero =>
    have last : (seconds + 1).toNat = i := by omega
    rw [demoLoop, if_neg (by omega), List.append_nil, last]
  | succ n ih =>
    have next := ih (i := i + 1) (by omega) (by omega)
    rw [demoLines_succ, List.append_assoc] at next
    rw [demoLoop, if_pos (by omega)]
    exact next

theorem demoMain_stdout {arg : CString} (positive : 0 < atoi arg) :
    (demoMain [arg]).stdout = demoLines (atoi arg) ((atoi arg).toNat + 1) := by
  have below : ((0 : Nat) : Int) ≤ atoi arg + 1 := by omega
  have all := demoLines_append_loop below
  have count : (atoi arg + 1).toNat = (atoi arg).toNat + 1 := by omega
  rw [count, demoLines_zero, List.nil_append] at all
  simpa [demoMain, Int.not_le.mpr positive] using all

section Decimal
variable {n : Nat}

theorem decimal_natCast : decimal n = Nat.toDigits 10 n := by
  simp [decimal]

theorem strtol_start {c : Char} {rest : CString} (digit : c.isDigit = true) :
    splitSign (skipSpace (c :: rest)) = (false, c :: rest) := by
  rw [skipSpace_of_head (isSpace_of_isDigit digit)]
  unfold splitSign
  split
  · rename_i same; cases same; simp at digit
  · rename_i same; cases same; simp at digit
  · rfl

theorem strtol_toDigits : strtol (Nat.toDigits 10 n) = some (min LONG_MAX n, []) := by
  have digits := toDigits_digits n
  have nonempty : Nat.toDigits 10 n ≠ [] := Nat.toDigits_ne_nil
  have value : Nat.ofDigitChars 10 (Nat.toDigits 10 n) 0 = n := Nat.ofDigitChars_ten_toDigits
  obtain ⟨c, rest, same⟩ := List.exists_cons_of_ne_nil nonempty
  have first : c.isDigit = true := List.all_eq_true.mp digits c (by simp [same])
  have whole : (Nat.toDigits 10 n).takeWhile Char.isDigit = Nat.toDigits 10 n :=
    List.takeWhile_eq_self_iff.mpr (List.all_eq_true.mp digits)
  rw [same] at whole value
  rw [same]
  simp only [strtol, strtol_start first, whole, value]
  simp

theorem strtol_blank (s : CString) : strtol (' ' :: s) = strtol s := by
  have skipped : skipSpace (' ' :: s) = skipSpace s := rfl
  simp only [strtol, skipped]

theorem atoi_decimal_natCast : atoi (decimal n) = toInt (min LONG_MAX n) := by
  rw [atoi, decimal_natCast, strtol_toDigits]

theorem atoi_decimal (small : (n : Int) ≤ INT_MAX) : atoi (decimal n) = n := by
  have small' : (n : Int) ≤ LONG_MAX := Int.le_trans small (by decide)
  rw [atoi_decimal_natCast, Int.min_eq_right small', toInt_of_bounds (Int.natCast_nonneg n) small]

theorem atoi_le (s : CString) : atoi s ≤ INT_MAX := by
  unfold atoi
  split
  · decide
  · rename_i value rest found
    have small := Int.bmod_lt (x := value) (m := 2 ^ 32) (by decide)
    unfold toInt INT_MAX
    omega

theorem decimal_newlines (n : Int) : (decimal n).count '\n' = 0 := by
  refine List.count_eq_zero.mpr fun member => ?_
  have digits : '\n' ∉ Nat.toDigits 10 n.natAbs := fun member =>
    absurd (List.all_eq_true.mp (toDigits_digits n.natAbs) _ member) (by decide)
  unfold decimal at member
  split at member
  · exact digits ((List.mem_cons.mp member).resolve_left (by decide))
  · exact digits member

theorem demoLine_newlines (iteration burst : Int) : (demoLine iteration burst).count '\n' = 1 := by
  have start : "Demo ".toList.count '\n' = 0 := by decide
  have slash : "/".toList.count '\n' = 0 := by decide
  have newline : "\n".toList.count '\n' = 1 := by decide
  unfold demoLine
  rw [List.count_append, List.count_append, List.count_append, List.count_append, decimal_newlines, decimal_newlines,
    start, slash, newline]

theorem demoLines_newlines (burst : Int) (n : Nat) : (demoLines burst n).count '\n' = n := by
  induction n with
  | zero => rfl
  | succ n ih => rw [demoLines_succ, List.count_append, ih, demoLine_newlines]

theorem demoMain_lines (positive : 0 < n) : (demoMain [decimal n]).stdout = demoLines n (n + 1) ↔ (n : Int) ≤ INT_MAX := by
  constructor
  · intro same
    have lines := congrArg (List.count '\n') same
    by_cases counts : 0 < atoi (decimal n)
    · rw [demoMain_stdout counts, demoLines_newlines, demoLines_newlines] at lines
      have small := atoi_le (decimal n)
      omega
    · rw [demoMain, if_pos (Int.not_lt.mp counts), demoLines_newlines] at lines
      cases lines
  · intro small
    have argument := atoi_decimal small
    rw [demoMain_stdout (by omega), argument, Int.toNat_natCast]

/-- A `demo N` command is parsed to what the demo program makes of its argument. -/
theorem parseDemoCommand_decimal :
    parseDemoCommand ("demo ".toList ++ decimal n) = if 0 < atoi (decimal n) then some (atoi (decimal n)) else none := by
  have plain : scanWordInt "demo".toList ("demo ".toList ++ decimal n) = (1, atoi (decimal n)) := by
    have word : "demo".toList.isPrefixOf ("demo ".toList ++ decimal n) = true := rfl
    have argument : ("demo ".toList ++ decimal n).drop "demo".toList.length = ' ' :: decimal n := rfl
    rw [scanWordInt, if_pos word, argument, strtol_blank, atoi_decimal_natCast, decimal_natCast, strtol_toDigits]
    rfl
  simp only [parseDemoCommand, plain, true_or, true_and, if_true, gt_iff_lt]

end Decimal

end MyShell
