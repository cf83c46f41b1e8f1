import FormalLanguages.Library.OrderedSet
import Mathlib.Order.Basic

/-! # Regular expressions and their operators (`regex.hpp`, `regex.cpp`) -/

namespace FormalLanguages

/-- The C++ type `char`, a signed byte. The byte `0` is the epsilon marker `'\0'`. -/
abbrev CChar := Int8

instance : LinearOrder CChar where
  le_refl := Int8.le_refl
  le_trans _ _ _ := Int8.le_trans
  le_antisymm _ _ := Int8.le_antisymm
  le_total := Int8.le_total
  lt_iff_le_not_ge a b := by
    rw [Int8.not_le]
    exact ⟨fun h => ⟨Int8.le_of_lt h, h⟩, fun h => h.2⟩
  toDecidableLE := Int8.decLe

/-- `struct Regex` with its four alternatives `CharRegex`, `ConcatRegex`, `SumRegex` and
`StarRegex`. -/
inductive Regex where
  | char (ch : CChar)
  | concat (operands : List Regex)
  | sum (operands : List Regex)
  | star (operand : Regex)

namespace Regex

def zero : Regex := .sum []

def empty : Regex := .char 0

def isZero : Regex → Bool
  | .sum [] => true
  | _ => false

def isEmpty : Regex → Bool
  | .char ch => ch == 0
  | _ => false

/-- `CharRegex::is_char_transition`. -/
def isCharTransition : Regex → Bool
  | .char _ => true
  | _ => false

/-- `is_char_transition(regex) && get_char(regex) == c`. -/
def isCharOf (c : CChar) : Regex → Bool
  | .char ch => ch == c
  | _ => false

mutual

/-- The letters of the expression are added to an alphabet; the epsilon marker is not. -/
def fillAlphabet : Regex → OrdSet CChar → OrdSet CChar
  | .char c, alphabet => if c != 0 then alphabet.insert c else alphabet
  | .concat operands, alphabet => fillAlphabetAll operands alphabet
  | .sum operands, alphabet => fillAlphabetAll operands alphabet
  | .star operand, alphabet => operand.fillAlphabet alphabet

def fillAlphabetAll : List Regex → OrdSet CChar → OrdSet CChar
  | [], alphabet => alphabet
  | operand :: operands, alphabet => fillAlphabetAll operands (operand.fillAlphabet alphabet)

end

mutual

/-- `operator==`. -/
def beq : Regex → Regex → Bool
  | .char ch, .char otherCh => ch == otherCh
  | .concat operands, .concat others => beqAll operands others
  | .sum operands, .sum others => beqAll operands others
  | .star operand, .star other => operand.beq other
  | _, _ => false

/-- `operator==` of two vectors. -/
def beqAll : List Regex → List Regex → Bool
  | [], [] => true
  | operand :: operands, other :: others => operand.beq other && beqAll operands others
  | _, _ => false

end

instance : BEq Regex := ⟨beq⟩

/-- The byte of an ASCII character. -/
def ascii (c : Char) : CChar := .ofNat c.toNat

/-- The two bytes of `"ε"`. -/
def epsilonSign : List CChar := [-50, -75]

mutual

/-- What `operator<<` writes. -/
def print : Regex → List CChar
  | .char ch => if ch == 0 then epsilonSign else [ch]
  | .concat operands => printConcat operands
  | .sum operands => [ascii '('] ++ printSum true operands ++ [ascii ')']
  | .star operand => [ascii '('] ++ operand.print ++ [ascii ')', ascii '*']

def printConcat : List Regex → List CChar
  | [] => []
  | operand :: operands => operand.print ++ printConcat operands

/-- The operands of a sum; the flag is `first`. -/
def printSum : Bool → List Regex → List CChar
  | _, [] => []
  | first, operand :: operands =>
      (if !first then [ascii ' ', ascii '+', ascii ' '] else []) ++ operand.print ++
        printSum false operands

end

/-- `operator ""_r`: the bytes of the string, one operand each. -/
def literal (string : List CChar) : Regex := .concat (string.map .char)

/-- `left += right`. -/
def addAssign (left right : Regex) : Regex :=
  if left.isZero then right
  else if right.isZero then left
  else match left with
    | .sum operands => .sum (operands ++ [right])
    | _ => .sum [left, right]

/-- `left *= right`. -/
def mulAssign (left right : Regex) : Regex :=
  if left.isZero then left
  else if right.isZero then zero
  else if left.isEmpty then right
  else if right.isEmpty then left
  else match left with
    | .concat operands => .concat (operands ++ [right])
    | _ => .concat [left, right]

/-- Unary `*regex`. -/
def unaryStar (regex : Regex) : Regex :=
  if regex.isEmpty || regex.isZero then regex else .star regex

/-- Binary `+` and `*` work on a copy of the left operand. -/
instance : Add Regex := ⟨addAssign⟩

instance : Mul Regex := ⟨mulAssign⟩

end Regex

/-- What a program can write with literals and the operators. -/
inductive Expression where
  | literal (string : List CChar)
  | zero
  | empty
  | add (left right : Expression)
  | mul (left right : Expression)
  | star (operand : Expression)

namespace Expression

/-- The regex that the operators construct. -/
def value : Expression → Regex
  | literal string => .literal string
  | zero => .zero
  | empty => .empty
  | add left right => left.value + right.value
  | mul left right => left.value * right.value
  | star operand => operand.value.unaryStar

def subexpressions : Expression → List Expression
  | literal string => [literal string]
  | zero => [zero]
  | empty => [empty]
  | add left right => add left right :: (left.subexpressions ++ right.subexpressions)
  | mul left right => mul left right :: (left.subexpressions ++ right.subexpressions)
  | star operand => star operand :: operand.subexpressions

end Expression

end FormalLanguages
