import Technosphere.Lib.Run
import Technosphere.Index.Basic

namespace Index.FileSorter

def reserved (fs : FileSorter) : ℕ :=
  fs.filesize / (2 * fs.maxPairs) + 2

-- Where `sort` is: in the loop of `partlySort`, or in its own one.
inductive Phase
  | splitting (fs : FileSorter) (fin : IfStream) (cur : ℕ × ℕ)
  | merging (fs : FileSorter) (fin : IfStream)

namespace Phase

def init (unsortedFile : List UInt8) : Phase :=
  splitting { FileSorter.new unsortedFile with filePositions := [0] } (.opened unsortedFile) (0, 0)

def advance : Phase → Option Phase
  | splitting fs fin cur =>
    let (cur, fin) := fin.extractPair cur
    if fin.fail then
      let fs := fs.flushLast
      some (merging fs (.opened fs.partlySortedFile))
    else
      let fs := { fs with sortBuf := fs.sortBuf ++ [toLex cur] }
      if fs.maxPairs ≤ fs.sortBuf.length then
        let fs            := fs.flushSorted
        let (offset, fin) := fs.offset fin
        let fs := { fs with
          filePositions     := fs.filePositions ++ [offset]
          nextFilePositions := fs.nextFilePositions ++ [offset] }
        some (splitting fs fin cur)
      else some (splitting fs fin cur)
  | merging fs fin =>
    let (curMin, fs, fin) := fs.getMin fin
    if curMin.1 = 2 ^ 64 - 1 then none
    else some (merging { fs with sortedFile := fs.sortedFile ++ pairText (toLex curMin) } fin)

def Step (s : Phase) (_ : Unit) (s' : Phase) : Prop :=
  s.advance = some s'

end Phase

end Index.FileSorter
