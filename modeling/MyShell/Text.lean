import Mathlib.Data.List.Basic
import Mathlib.Algebra.Ring.Int.Defs
import Mathlib.Algebra.Ring.Nat

/-! # C strings, and numbers as glibc reads and prints them -/

namespace MyShell

abbrev CString := List Char

def NUL : Char := '\x00'

def BUFFER_SIZE : Nat := 4096

def END_MARKER : CString := "<<END>>".toList

def INT_MAX : Int := 2 ^ 31 - 1
def LONG_MIN : Int := -2 ^ 63
def LONG_MAX : Int := 2 ^ 63 - 1

def toInt (n : Int) : Int := n.bmod (2 ^ 32)

theorem toInt_of_bounds {n : Int} (nonneg : 0 ≤ n) (small : n ≤ INT_MAX) : toInt n = n := by
  unfold INT_MAX at small
  unfold toInt
  rw [Int.bmod_eq_of_le] <;> omega

def decimal (n : Int) : CString :=
  if n < 0 then '-' :: Nat.toDigits 10 n.natAbs else Nat.toDigits 10 n.natAbs

def isSpace (c : Char) : Bool :=
  c == ' ' || c == '\t' || c == '\n' || c == '\x0b' || c == '\x0c' || c == '\r'

def skipSpace (s : CString) : CString := s.dropWhile isSpace

def splitSign : CString → Bool × CString
  | '-' :: rest => (true, rest)
  | '+' :: rest => (false, rest)
  | s => (false, s)

/-- `strtol(s, &end, 10)`: the number at the start of `s`, out of range ones at the limit of
`long`, with the text at `end`; `none` when there is no number. -/
def strtol (s : CString) : Option (Int × CString) :=
  let (negative, body) := splitSign (skipSpace s)
  let digits := body.takeWhile Char.isDigit
  let value : Int := Nat.ofDigitChars 10 digits 0
  if digits = [] then none
  else some (if negative then max LONG_MIN (-value) else min LONG_MAX value, body.drop digits.length)

def atoi (s : CString) : Int :=
  match strtol s with
  | none => 0
  | some (value, _) => toInt value

/-- `sscanf(s, "<word> %d %63s", &n, extra)`: the number of conversions made, and `n`. A blank of
the format matches any amount of white space, also none. -/
def scanWordInt (word s : CString) : Nat × Int :=
  if word.isPrefixOf s then
    match strtol (s.drop word.length) with
    | none => (0, 0)
    | some (value, rest) => (if skipSpace rest = [] then 1 else 2, toInt value)
  else (0, 0)

theorem skipSpace_of_head {c : Char} {rest : CString} (visible : isSpace c = false) :
    skipSpace (c :: rest) = c :: rest := by
  simp [skipSpace, visible]

theorem isSpace_of_isDigit {c : Char} (digit : c.isDigit = true) : isSpace c = false := by
  have bounds : 48 ≤ c.toNat ∧ c.toNat ≤ 57 := by
    simpa [Char.isDigit, UInt32.le_iff_toNat_le] using digit
  simp only [isSpace, Bool.or_eq_false_iff, beq_eq_false_iff_ne, ne_eq]
  refine ⟨⟨⟨⟨⟨?_, ?_⟩, ?_⟩, ?_⟩, ?_⟩, ?_⟩ <;> rintro rfl <;> simp at bounds

theorem toDigits_digits (n : Nat) : (Nat.toDigits 10 n).all Char.isDigit = true :=
  List.all_eq_true.mpr fun _ member => Nat.isDigit_of_mem_toDigits (by decide) (by decide) member

end MyShell
