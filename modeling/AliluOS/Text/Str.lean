import AliluOS.Text.Lowercase
import Mathlib.Algebra.Order.Ring.Int
import Mathlib.Data.List.DropRight

/-! Rust strings as lists of characters, and the `str` methods that the kernel
calls. -/

namespace AliluOS.Text

abbrev Str := List Char

instance : Coe String Str := ⟨String.toList⟩

def isWhitespace (c : Char) : Bool :=
  let n := c.toNat
  (9 ≤ n && n ≤ 13) || n = 0x20 || n = 0x85 || n = 0xA0 || n = 0x1680 || (0x2000 ≤ n && n ≤ 0x200A)
    || n = 0x2028 || n = 0x2029 || n = 0x202F || n = 0x205F || n = 0x3000

def trim (s : Str) : Str := (s.dropWhile isWhitespace).rdropWhile isWhitespace

def splitWhitespace (s : Str) : List Str := (s.splitOnP isWhitespace).filter (· ≠ [])

def split (sep : Char) (s : Str) : List Str := s.splitOn sep

/-- A line may end in `\r\n`; its end is not part of it. -/
def stripCarriageReturn (line : Str) : Str :=
  if line.getLast? = some '\r' then line.dropLast else line

/-- `str::lines`. A last line without `\n` counts unless it is empty. -/
def lines (s : Str) : List Str :=
  let pieces := s.splitOn '\n'
  let rest := pieces.getLast?.getD []
  pieces.dropLast.map stripCarriageReturn ++ if rest = [] then [] else [rest]

def rfind (c : Char) (s : Str) : Option Nat :=
  (s.reverse.findIdx? (· = c)).map fun i => s.length - 1 - i

def utf8Len (s : Str) : Nat := (s.map Char.utf8Size).sum

def asBytes (s : Str) : List UInt8 := s.flatMap String.utf8EncodeChar

def find (pat : Str) : Str → Option Nat
  | [] => if pat.isEmpty then some 0 else none
  | c :: s => if pat.isPrefixOf (c :: s) then some 0 else (find pat s).map (c.utf8Size + ·)

/-- `&s[n..]` for a byte position. `none` is the panic when `n` is out of range or
inside a character. -/
def sliceFrom : Nat → Str → Option Str
  | 0, s => some s
  | _ + 1, [] => none
  | n + 1, c :: s => if c.utf8Size ≤ n + 1 then sliceFrom (n + 1 - c.utf8Size) s else none

/-- `str::replace` for a text that is not empty; `skip` characters of the last
match are still to be passed over. -/
def replaceFrom (pat new : Str) : Nat → Str → Str
  | _, [] => []
  | skip + 1, _ :: s => replaceFrom pat new skip s
  | 0, c :: s =>
    if pat.isPrefixOf (c :: s) then new ++ replaceFrom pat new (pat.length - 1) s
    else c :: replaceFrom pat new 0 s

def replace (pat new s : Str) : Str := replaceFrom pat new 0 s

def digitChar (d : Nat) : Char := Char.ofNat ('0'.toNat + d)

def pushDigits : Nat → Nat → Str → Str
  | 0, _, digits => digits
  | fuel + 1, temp, digits =>
    if temp > 0 then pushDigits fuel (temp / 10) (digits ++ [digitChar (temp % 10)]) else digits

def decimal (n : Nat) : Str := if n = 0 then ['0'] else (pushDigits n n []).reverse

def join (sep : Str) (parts : List Str) : Str := sep.intercalate parts

end AliluOS.Text
