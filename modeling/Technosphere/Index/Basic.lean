import Technosphere.Lib.IfStream
import Technosphere.Lib.SortedMap

namespace Index

-- A word with a document, in the order of `pair<uint64_t, uint64_t>`.
abbrev WordDoc := ℕ ×ₗ ℕ

def pairText (p : WordDoc) : List UInt8 :=
  Decimal.text (ofLex p).1 ++ 32 :: Decimal.text (ofLex p).2 ++ [32]

def pairsText (ps : List WordDoc) : List UInt8 :=
  ps.flatMap pairText

structure FileReader where
  fin      : IfStream
  fout     : List UInt8
  curDocid : ℕ
  curWord  : ℕ
  cntWords : ℕ
  wordDict : SortedMap ℕ ℕ

namespace FileReader

def init (file : List UInt8) : FileReader where
  fin      := .opened file
  fout     := []
  curDocid := 0
  curWord  := 0
  cntWords := 0
  wordDict := ∅

def countWord (wordDict : SortedMap ℕ ℕ) (word : ℕ) : SortedMap ℕ ℕ :=
  match wordDict.find? word with
  | none     => wordDict.set word 1
  | some cnt => wordDict.set word ((cnt + 1) % 2 ^ 64)

def readWord (r : FileReader) : FileReader :=
  let (curWord, fin) := r.fin.readValue 8 r.curWord
  { r with
    fin      := fin
    fout     := r.fout ++ pairText (toLex (curWord, r.curDocid))
    curWord  := curWord
    wordDict := countWord r.wordDict curWord }

def readDocs : ℕ → FileReader → Option FileReader
  | 0,     _ => none
  | n + 1, r =>
    let (curDocid, fin) := r.fin.readValue 8 r.curDocid
    if fin.fail then some { r with fin := fin, curDocid := curDocid }
    else
      let (cntWords, fin) := fin.readValue 4 r.cntWords
      let r := { r with fin := fin, curDocid := curDocid, cntWords := cntWords }
      readDocs n (readWord^[cntWords] r)

def read (file : List UInt8) : Option FileReader :=
  readDocs (file.length + 1) (init file)

end FileReader

structure IdsStruct where
  filePosIdx : ℕ
  nextOffset : ℕ
  word       : ℕ
  doc        : ℕ

-- `operator<` only compares the word and the document, so the heap is a map from these. Of
-- `sort_buf_` only the pairs that have been read into it are represented. Files are represented by
-- their bytes.
structure FileSorter where
  unsortedFile      : List UInt8
  partlySortedFile  : List UInt8
  sortedFile        : List UInt8
  filesize          : ℕ
  mustInitialize    : Bool
  maxPairs          : ℕ
  sortBuf           : List WordDoc
  filePositions     : List ℕ
  nextFilePositions : List ℕ
  heap              : SortedMap WordDoc IdsStruct

namespace FileSorter

def availableMemory (filesize : ℕ) : ℕ :=
  filesize / 64 + 128

def new (unsortedFile : List UInt8) : FileSorter where
  unsortedFile      := unsortedFile
  partlySortedFile  := []
  sortedFile        := []
  filesize          := unsortedFile.length
  mustInitialize    := true
  maxPairs          := availableMemory unsortedFile.length / 16 + 4
  sortBuf           := []
  filePositions     := []
  nextFilePositions := []
  heap              := ∅

-- The position in a stream, for which the end of the file stands if `tellg` fails.
def offset (fs : FileSorter) (fin : IfStream) : ℕ × IfStream :=
  let (pos, fin) := fin.tellg
  (if pos = -1 then fs.filesize else pos.toNat, fin)

def flushSorted (fs : FileSorter) : FileSorter :=
  { fs with
    partlySortedFile := fs.partlySortedFile ++ pairsText (fs.sortBuf.mergeSort (· ≤ ·))
    sortBuf          := [] }

def partlySortLoop : ℕ → FileSorter → IfStream → ℕ × ℕ → Option FileSorter
  | 0,     _,  _,   _   => none
  | n + 1, fs, fin, cur =>
    let (cur, fin) := fin.extractPair cur
    if fin.fail then some fs
    else
      let fs := { fs with sortBuf := fs.sortBuf ++ [toLex cur] }
      if fs.maxPairs ≤ fs.sortBuf.length then
        let fs            := fs.flushSorted
        let (offset, fin) := fs.offset fin
        let fs := { fs with
          filePositions     := fs.filePositions ++ [offset]
          nextFilePositions := fs.nextFilePositions ++ [offset] }
        partlySortLoop n fs fin cur
      else partlySortLoop n fs fin cur

def flushLast (fs : FileSorter) : FileSorter :=
  if 0 < fs.sortBuf.length then
    let fs := fs.flushSorted
    { fs with nextFilePositions := fs.nextFilePositions ++ [fs.filesize] }
  else { fs with filePositions := fs.filePositions.dropLast }

def partlySort (fs : FileSorter) : Option FileSorter := do
  let fs := { fs with filePositions := fs.filePositions ++ [0] }
  let fs ← partlySortLoop (fs.unsortedFile.length + 1) fs (.opened fs.unsortedFile) (0, 0)
  return fs.flushLast

-- Reads the next pair of the run with the index `i`, from the position `pos` of the file. Without
-- one the file is opened again. (The values before the input are never used.)
def insertNext (fs : FileSorter) (fin : IfStream) (i pos : ℕ) : FileSorter × IfStream :=
  if pos < fs.nextFilePositions.getD i 0 then
    let (cur, fin) := (fin.seekg pos).extractPair (2 ^ 64 - 1, 2 ^ 64 - 1)
    if fin.fail then (fs, .opened fs.partlySortedFile)
    else
      let (offset, fin) := fs.offset fin
      ({ fs with heap := fs.heap.insert (toLex cur) ⟨i, offset, cur.1, cur.2⟩ }, fin)
  else (fs, fin)

def initializeHeap (fs : FileSorter) (fin : IfStream) : FileSorter × IfStream :=
  let (fs, fin) := (List.range fs.filePositions.length).foldl
    (fun (fs, fin) i => fs.insertNext fin i (fs.filePositions.getD i 0)) (fs, fin)
  ({ fs with mustInitialize := false }, fin)

def popMin (fs : FileSorter) (fin : IfStream) : (ℕ × ℕ) × FileSorter × IfStream :=
  match fs.heap.entries with
  | []               => ((2 ^ 64 - 1, 2 ^ 64 - 1), fs, fin)
  | (_, curMin) :: _ =>
    let fs := { fs with heap := fs.heap.eraseMin }
    ((curMin.word, curMin.doc), fs.insertNext fin curMin.filePosIdx curMin.nextOffset)

def getMin (fs : FileSorter) (fin : IfStream) : (ℕ × ℕ) × FileSorter × IfStream :=
  let (fs, fin) := if fs.mustInitialize then fs.initializeHeap fin else (fs, fin)
  fs.popMin fin

def sortLoop : ℕ → FileSorter → IfStream → Option FileSorter
  | 0,     _,  _   => none
  | n + 1, fs, fin =>
    let (curMin, fs, fin) := fs.getMin fin
    if curMin.1 = 2 ^ 64 - 1 then some fs
    else sortLoop n { fs with sortedFile := fs.sortedFile ++ pairText (toLex curMin) } fin

def sort (fs : FileSorter) : Option FileSorter := do
  let fs ← fs.partlySort
  fs.sortLoop (fs.filesize + 1) (.opened fs.partlySortedFile)

end FileSorter

def writeHeader (size : ℕ) : List (ℕ × ℕ) → (i prevCntDocs curOffset : ℕ) → List UInt8
  | [],                _, _,           _         => []
  | (word, cnt) :: es, i, prevCntDocs, curOffset =>
    let curOffset :=
      if i = 0 then (curOffset + 16 * (size + 1)) % 2 ^ 64
      else (curOffset + (4 + prevCntDocs * 8)) % 2 ^ 64
    LittleEndian.bytes 8 word ++ LittleEndian.bytes 8 curOffset ++
      writeHeader size es (i + 1) cnt curOffset

def writeDocs : ℕ → IfStream → ℕ × ℕ → List UInt8 × IfStream × (ℕ × ℕ)
  | 0,     sorted, cur => ([], sorted, cur)
  | n + 1, sorted, cur =>
    let (cur, sorted)         := sorted.extractPair cur
    let (docs, sorted, cur')  := writeDocs n sorted cur
    (LittleEndian.bytes 8 cur.2 ++ docs, sorted, cur')

def writeLists : List (ℕ × ℕ) → IfStream → ℕ × ℕ → List UInt8
  | [],             _,      _   => []
  | (_, cnt) :: es, sorted, cur =>
    let (docs, sorted, cur) := writeDocs cnt sorted cur
    LittleEndian.bytes 4 (cnt % 2 ^ 32) ++ docs ++ writeLists es sorted cur

-- `cur` is what `cur_w` and `cur_d`, which are not initialized, hold at first.
def makeReverseIndex (index : List UInt8) (cur : ℕ × ℕ) : Option (List UInt8) := do
  let fr ← FileReader.read index
  let wordDict := fr.wordDict.entries
  let fs ← (FileSorter.new fr.fout).sort
  return writeHeader wordDict.length wordDict 0 0 0 ++
    LittleEndian.bytes 8 0 ++ LittleEndian.bytes 8 0 ++
    writeLists wordDict (.opened fs.sortedFile) cur

-- What `printReadable` prints: the words with their offsets, and the lists of documents with their
-- lengths. The stream is what is left of the file.
structure Readable where
  header : List (ℕ × ℕ)
  lists  : List (ℕ × List ℕ)
  fin    : IfStream

def readHeader : ℕ → IfStream → ℕ × ℕ → Option (List (ℕ × ℕ) × IfStream)
  | 0,     _,   _   => none
  | n + 1, fin, cur =>
    let (curW, fin)      := fin.readValue 8 cur.1
    let (curOffset, fin) := fin.readValue 8 cur.2
    if curW = 0 ∧ curOffset = 0 then some ([(curW, curOffset)], fin)
    else (readHeader n fin (curW, curOffset)).map fun (es, fin) => ((curW, curOffset) :: es, fin)

def readDocs : ℕ → IfStream → ℕ → List ℕ × IfStream × ℕ
  | 0,     fin, cur => ([], fin, cur)
  | n + 1, fin, cur =>
    let (cur, fin)        := fin.readValue 8 cur
    let (docs, fin, cur') := readDocs n fin cur
    (cur :: docs, fin, cur')

def readList (fin : IfStream) (cntDocs curDoc : ℕ) : (ℕ × List ℕ) × IfStream × ℕ :=
  let (cntDocs, fin)      := fin.readValue 4 cntDocs
  let (docs, fin, curDoc) := readDocs cntDocs fin curDoc
  ((cntDocs, docs), fin, curDoc)

def readLists : ℕ → IfStream → (cntDocs curDoc : ℕ) → List (ℕ × List ℕ) × IfStream
  | 0,     fin, _,       _      => ([], fin)
  | n + 1, fin, cntDocs, curDoc =>
    let (list, fin, curDoc) := readList fin cntDocs curDoc
    let (lists, fin)        := readLists n fin list.1 curDoc
    (list :: lists, fin)

-- None of the variables that it reads into is initialized.
def printReadable (file : List UInt8) (cur : ℕ × ℕ) (cntDocs curDoc : ℕ) : Option Readable := do
  let (header, fin) ← readHeader (file.length + 1) (.opened file) cur
  let (lists, fin) := readLists (header.length - 1) fin cntDocs curDoc
  return ⟨header, lists, fin⟩

end Index
