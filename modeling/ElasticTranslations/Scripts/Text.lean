import Mathlib.Data.List.DropRight
import Mathlib.Tactic.Common

/-! The text primitives of the Python scripts: `strip`, `split` and `int` on lines as they
are read from a file, and the hexadecimal format of the lines that scripts write. Digits are
the ASCII ones. -/
namespace ElasticTranslations.Scripts

/-- The exceptions that end a script. -/
inductive PyError where
  | valueError
  | indexError
  | zeroDivisionError
  deriving DecidableEq

abbrev Text := List Char

/-- `str.isspace` of one character. -/
def isSpace (c : Char) : Bool :=
  let n := c.toNat
  (9 ≤ n && n ≤ 13) || (28 ≤ n && n ≤ 32) || n == 133 || n == 160 || n == 5760 ||
    (8192 ≤ n && n ≤ 8202) || n == 8232 || n == 8233 || n == 8239 || n == 8287 || n == 12288

def strip (s : Text) : Text := (s.dropWhile isSpace).rdropWhile isSpace

/-- A character in front of the first part. -/
def consHead (c : Char) : List Text → List Text
  | [] => [[c]]
  | part :: parts => (c :: part) :: parts

/-- `split` at a separator, at most so many times. -/
def splitAtMost (sep : Char) : ℕ → Text → List Text
  | _,[] => [[]]
  | 0,c :: s => [c :: s]
  | n+1,c :: s =>
    if c = sep then [] :: splitAtMost sep n s else consHead c (splitAtMost sep (n+1) s)

def split (sep : Char) (s : Text) : List Text := splitAtMost sep s.length s

/-- An element of a list of parts. -/
def partAt (parts : List Text) (i : ℕ) : Except PyError Text :=
  match parts[i]? with
  | some part => return part
  | none => throw .indexError

def digitValue (c : Char) : Option ℕ :=
  if '0' ≤ c ∧ c ≤ '9' then some (c.toNat-48)
  else if 'a' ≤ c ∧ c ≤ 'z' then some (c.toNat-87)
  else if 'A' ≤ c ∧ c ≤ 'Z' then some (c.toNat-55)
  else none

/-- Digits from the left. The flag says whether an underscore, or the end, may come next. -/
def readDigits (base : ℕ) : ℕ → Bool → Text → Option ℕ
  | acc,closed,[] => if closed then some acc else none
  | acc,closed,c :: s =>
    if c = '_' then if closed then readDigits base acc false s else none
    else match digitValue c with
      | some d => if d < base then readDigits base (acc*base+d) true s else none
      | none => none

/-- `0x` in front of a number in base 16, with an underscore after it. -/
def dropHexPrefix : Text → Text
  | '0' :: 'x' :: '_' :: s => s
  | '0' :: 'X' :: '_' :: s => s
  | '0' :: 'x' :: s => s
  | '0' :: 'X' :: s => s
  | s => s

/-- `int` of a text without sign. -/
def readNat (base : ℕ) (s : Text) : Except PyError ℤ :=
  match readDigits base 0 false (if base = 16 then dropHexPrefix s else s) with
  | some n => return n
  | none => throw .valueError

/-- `int(s, base)` for base 10 and 16. -/
def int (base : ℕ) (s : Text) : Except PyError ℤ :=
  match strip s with
  | '-' :: s => (fun n => -n) <$> readNat base s
  | '+' :: s => readNat base s
  | s => readNat base s

end ElasticTranslations.Scripts
