import Technosphere.Shell.Basic

structure LexemParser where
  input  : String
  lexems : List Lexem := []
deriving DecidableEq, Repr

namespace LexemParser

def takeType (s : String) : LexemType :=
  if s = "&" then .subprocess
  else if s = "|" then .pipe
  else if s = "&&" then .and
  else if s = "||" then .or
  else if s = "<" then .input
  else if s = ">" then .output
  else .argument

def isSpace (c : Char) : Bool :=
  c = ' ' || (9 ≤ c.toNat && c.toNat ≤ 13)

def nextPiece (ss : List Char) : Option (List Char × List Char) :=
  let ss := ss.dropWhile isSpace
  if ss.isEmpty then none
  else some (ss.takeWhile (!isSpace ·), ss.dropWhile (!isSpace ·))

-- `string(first, last)` for iterators of `temp`, which are positions here.
def slice (temp : List Char) (first last : ℕ) : String :=
  .ofList ((temp.take last).drop first)

structure Scan where
  prevIt : ℕ := 0
  it1    : ℕ := 0
  lexems : List Lexem
deriving DecidableEq

-- The body of the loop over the lengths `i`, with a result if it ends with `break`.
def tryOperator (temp : List Char) (s : Scan) (i : ℕ) : Option Scan :=
  if s.it1 + i ≤ temp.length then
    let curType := takeType (slice temp s.it1 (s.it1 + i))
    if curType ≠ .argument then
      let lexems := if s.prevIt < s.it1
        then s.lexems ++ [⟨slice temp s.prevIt s.it1, .argument⟩] else s.lexems
      some {
        lexems := lexems ++ [⟨slice temp s.it1 (s.it1 + i), curType⟩]
        prevIt := s.it1 + i
        it1    := s.it1 + (i - 1) }
    else none
  else none

def scanBody (temp : List Char) (s : Scan) : Scan :=
  let s := ((tryOperator temp s 2).or (tryOperator temp s 1)).getD s
  { s with it1 := s.it1 + 1 }

def scanLoop (temp : List Char) : ℕ → Scan → Scan
  | 0,     s => s
  | n + 1, s => if s.it1 < temp.length then scanLoop temp n (scanBody temp s) else s

def parsePiece (temp : List Char) (lexems : List Lexem) : List Lexem :=
  let s := scanLoop temp temp.length { lexems }
  if s.prevIt ≠ temp.length
  then s.lexems ++ [⟨slice temp s.prevIt temp.length, .argument⟩] else s.lexems

def parseLoop : ℕ → List Char → List Lexem → List Lexem
  | 0,     _,  lexems => lexems
  | n + 1, ss, lexems =>
    match nextPiece ss with
    | some (temp, ss) => parseLoop n ss (parsePiece temp lexems)
    | none            => lexems

def parse (p : LexemParser) : LexemParser :=
  { p with lexems := parseLoop p.input.length p.input.toList p.lexems }

def get (p : LexemParser) : List Lexem :=
  p.lexems

end LexemParser
