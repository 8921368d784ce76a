import Technosphere.Index.Basic

namespace Index

-- The program that makes the file to compare with, with the stream and the variables of its `main`.
structure Checker where
  fin      : IfStream
  curDocid : ℕ
  curWord  : ℕ
  cntWords : ℕ
  wordDict : SortedMap ℕ (List ℕ)

namespace Checker

def init (file : List UInt8) : Checker where
  fin      := .opened file
  curDocid := 0
  curWord  := 0
  cntWords := 0
  wordDict := ∅

def pushDoc (wordDict : SortedMap ℕ (List ℕ)) (word docid : ℕ) : SortedMap ℕ (List ℕ) :=
  wordDict.set word ((wordDict.find? word).getD [] ++ [docid])

def readWord (c : Checker) : Checker :=
  let (curWord, fin) := c.fin.readValue 8 c.curWord
  { c with
    fin      := fin
    curWord  := curWord
    wordDict := pushDoc c.wordDict curWord c.curDocid }

def readDocs : ℕ → Checker → Option Checker
  | 0,     _ => none
  | n + 1, c =>
    let (curDocid, fin) := c.fin.readValue 8 c.curDocid
    if fin.fail then some { c with fin := fin, curDocid := curDocid }
    else
      let (cntWords, fin) := fin.readValue 4 c.cntWords
      let c := { c with fin := fin, curDocid := curDocid, cntWords := cntWords }
      readDocs n (readWord^[cntWords] c)

def writeHeader (size : ℕ) : List (ℕ × List ℕ) → (i prevCntDocs curOffset : ℕ) → List UInt8
  | [],                 _, _,           _         => []
  | (word, docs) :: es, i, prevCntDocs, curOffset =>
    let curOffset :=
      if i = 0 then (curOffset + 16 * (size + 1)) % 2 ^ 64
      else (curOffset + (4 + prevCntDocs * 8)) % 2 ^ 64
    LittleEndian.bytes 8 word ++ LittleEndian.bytes 8 curOffset ++
      writeHeader size es (i + 1) docs.length curOffset

def writeLists : List (ℕ × List ℕ) → List UInt8
  | []              => []
  | (_, docs) :: es =>
    LittleEndian.bytes 4 (docs.length % 2 ^ 32) ++ docs.flatMap (LittleEndian.bytes 8) ++
      writeLists es

def main (file : List UInt8) : Option (List UInt8) := do
  let c ← readDocs (file.length + 1) (init file)
  let wordDict := c.wordDict.entries
  return writeHeader wordDict.length wordDict 0 0 0 ++
    LittleEndian.bytes 8 0 ++ LittleEndian.bytes 8 0 ++ writeLists wordDict

end Checker

end Index
