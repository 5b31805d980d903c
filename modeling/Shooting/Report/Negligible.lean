/-! # Negligible numbers in reports

Numbers that are written with an exponent of -10 or below, or with an exponent and no digit but zero,
are replaced by a mark, together with the blanks in front of them. What is left of a computation that
should have given zero reads the same wherever it ran.
-/

namespace Shooting.Report

def skipDigits : List Char → Option (List Char)
  | c :: cs => if c.isDigit then some (cs.dropWhile Char.isDigit) else none
  | [] => none

def skipFraction : List Char → List Char
  | '.' :: cs => (skipDigits cs).getD ('.' :: cs)
  | cs => cs

/-- What follows an exponent of -10 or below that ends the number. -/
def skipSmallExponent : List Char → Option (List Char)
  | 'e' :: '-' :: a :: b :: rest =>
    let digits := rest.takeWhile Char.isDigit
    if a.isDigit && b.isDigit && (digits.length = 1 || digits.isEmpty && a ≠ '0') then
      some (rest.drop digits.length)
    else none
  | _ => none

def skipSmall : List Char → Option (List Char)
  | c :: cs => if c.isDigit then skipSmallExponent (skipFraction cs) else none
  | [] => none

def skipZero : List Char → Option (List Char)
  | '0' :: '.' :: '0' :: cs =>
    match cs.dropWhile (· = '0') with
    | 'e' :: '+' :: '0' :: '0' :: rest =>
      if rest.head?.any Char.isDigit then none else some rest
    | _ => none
  | _ => none

def skipNegligible (cs : List Char) : Option (List Char) :=
  let unsigned := match cs.dropWhile (· = ' ') with
    | '-' :: rest => rest
    | rest => rest
  skipSmall unsigned <|> skipZero unsigned

/-- Replaces the negligible numbers from the start of a text on, of which at most `fuel` characters
are read. -/
def markFrom : Nat → List Char → List Char
  | 0, cs => cs
  | _, [] => []
  | fuel + 1, c :: cs =>
    match skipNegligible (c :: cs) with
    | some rest => ' ' :: '~' :: '0' :: markFrom fuel rest
    | none => c :: markFrom fuel cs

def markNegligible (line : String) : String :=
  String.ofList (markFrom line.length line.toList)

end Shooting.Report
