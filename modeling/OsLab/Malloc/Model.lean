import OsLab.Lib.Machine
import OsLab.Lib.LinkedList
import OsLab.Lib.OrderedMap
import OsLab.Lib.Double
import OsLab.Lib.Vec
import Mathlib.Data.List.Sort

/-!
# The paged allocator (`goodmalloc.cpp`)

The globals `mem`, `sym_table`, `list_map`, `curr_scope` and `MAX_PAGES_USED` are one
`State`, and each function of the library is a function on it. `none` is undefined
behaviour: a `list_pages` pointer that was never set, an index past the end of a page
vector, the top of an empty heap, a signed overflow.

`unsigned long` and `size_t` are naturals below `2^64` with explicit wrap-around, `int` is
`ℤ` with explicit conversions. `mem->mem` is a map from every index to an `int`: the array
has `capacity / sizeof(int)` elements, and accesses past them are the subject of
`Malloc/Range.lean`. What is only printed is left out.
-/

namespace OsLab.Malloc

open Lib

/-- `NUM_ELEM_PER_PAGE`. -/
def numElemPerPage : ℕ := 20

/-- `sizeof(int)`. -/
def sizeofInt : ℕ := 4

/-- `PAGE_SIZE`, in bytes. -/
def pageSize : ℕ := numElemPerPage * sizeofInt

/-- Reduction to `unsigned long`. -/
def u64 (n : ℕ) : ℕ := n % 2 ^ 64

/-- `-1` as an `unsigned long`. -/
def negOne : ℕ := 2 ^ 64 - 1

/-- Conversion of an `unsigned long` to `int`. -/
def toInt (n : ℕ) : ℤ :=
  if n % 2 ^ 32 < 2 ^ 31 then ((n % 2 ^ 32 : ℕ) : ℤ) else ((n % 2 ^ 32 : ℕ) : ℤ) - 2 ^ 32

/-- Conversion of an `int` to `unsigned long`. -/
def toULong (z : ℤ) : ℕ := (z % 2 ^ 64).toNat

/-- `Sym_Table_Entry`. The pointer `list_pages` is `none` where it was never set. -/
structure SymTableEntry where
  nextEntry : ℕ
  size : ℕ
  capacity : ℕ
  listPages : Option (List ℕ)

/-- `mem_Block`. The min-heap `free_list` is the list of its elements in pop order. -/
structure MemBlock where
  mem : ℕ → ℤ
  capacity : ℕ
  freeList : List ℤ
  numFreePages : ℕ

/-- `Sym_Table`. The array `entries` has `NUM_SYM_TABLE_ENTRIES` elements. -/
structure SymTable where
  firstFreeEntry : ℕ
  numFreeEntries : ℕ
  entries : ℕ → SymTableEntry

/-- A key of `list_map`: scope and list name. -/
abbrev Key := ℤ × String

/-- `operator<` of `pair<int, string>`. -/
def Key.lt (a b : Key) : Bool := a.1 < b.1 || (a.1 == b.1 && a.2 < b.2)

/-- The globals of the library, after `createMem`. -/
structure State where
  mem : MemBlock
  symTable : SymTable
  listMap : List (Key × ℕ)
  currScope : ℤ
  maxPagesUsed : ℕ

/-- What the program does not set: `NUM_SYM_TABLE_ENTRIES`, a positive `size_t`, and what
`malloc` left in the simulated memory and in the symbol table. -/
structure Config where
  numSymTableEntries : ℕ
  one_le : 1 ≤ numSymTableEntries
  lt_u64 : numSymTableEntries < 2 ^ 64
  uninitMem : ℕ → ℤ
  uninitEntry : SymTableEntry

/-- The repository's table size, with nothing useful left in the memory `malloc` returns. -/
def Config.shipped : Config := ⟨100000, by decide, by decide, fun _ => 0, ⟨0, 0, 0, none⟩⟩

variable (c : Config)

/-- `free_list.push(z)`. -/
def push (q : List ℤ) (z : ℤ) : List ℤ := q.orderedInsert (· ≤ ·) z

/-- `mem_Block::init`. -/
def MemBlock.init (size : ℕ) : MemBlock where
  mem := fun i => if i < size / sizeofInt then 0 else c.uninitMem i
  capacity := size
  numFreePages := size / pageSize
  freeList := (List.range (size / pageSize)).foldl (fun q i => push q (toInt i)) []

/-- `Sym_Table::init`: the loop stops before the last entry, which only gets its
`next_entry`. -/
def SymTable.init : SymTable where
  firstFreeEntry := 0
  numFreeEntries := c.numSymTableEntries
  entries := fun i =>
    if i + 1 < c.numSymTableEntries then ⟨i + 1, 0, 0, some []⟩
    else if i + 1 = c.numSymTableEntries then { c.uninitEntry with nextEntry := negOne }
    else c.uninitEntry

/-- `createMem`, on the first call. -/
def createMem (size : ℕ) : State where
  mem := MemBlock.init c (u64 (ceilDiv size pageSize * pageSize))
  symTable := SymTable.init c
  listMap := []
  currScope := -1
  maxPagesUsed := 0

/-- Setting one entry of the symbol table. -/
def State.setEntry (s : State) (e : ℕ) (x : SymTableEntry) : State :=
  { s with symTable := { s.symTable with entries := Function.update s.symTable.entries e x } }

/-- `Sym_Table::addEntry`. -/
def addEntry (s : State) (scope : ℤ) (listName : String) (pageMapping : List ℕ)
    (capacity : ℕ) : Option (State × ℤ) :=
  if s.symTable.numFreeEntries = 0 then some (s, -1)
  else if (find s.listMap (scope, listName)).isSome then some (s, -1)
  else
    let entryNum := s.symTable.firstFreeEntry
    let entry := s.symTable.entries entryNum
    if entryNum < c.numSymTableEntries ∧ entry.listPages.isSome then
      some ({ s with
        symTable :=
          { firstFreeEntry := entry.nextEntry
            numFreeEntries := s.symTable.numFreeEntries - 1
            entries := Function.update s.symTable.entries entryNum
              ⟨negOne, 0, capacity, some pageMapping⟩ }
        listMap := insert Key.lt s.listMap (scope, listName) entryNum }, toInt entryNum)
    else none

/-- `Sym_Table::deleteEntry`: the page vector is cleared, its pages stay out of
`free_list`. -/
def deleteEntry (s : State) (scope : ℤ) (listName : String) : Option State :=
  match find s.listMap (scope, listName) with
  | none => some s
  | some entryNum =>
    if (s.symTable.entries entryNum).listPages.isSome then
      some { s with
        listMap := erase s.listMap (scope, listName)
        symTable :=
          { firstFreeEntry := entryNum
            numFreeEntries := s.symTable.numFreeEntries + 1
            entries := Function.update s.symTable.entries entryNum
              ⟨s.symTable.firstFreeEntry, 0, 0, some []⟩ } }
    else none

/-- `initScope`. -/
def initScope (s : State) : Option State :=
  if s.currScope < intMax then some { s with currScope := s.currScope + 1 } else none

/-- The first key of `list_map` in the current scope, in key order. -/
def firstInScope (s : State) : Option (Key × ℕ) :=
  s.listMap.find? fun p => p.1.1 = s.currScope

/-- `endScope`: the loop over `list_map` breaks after the first list of the scope. -/
def endScope (s : State) : Option State := do
  let s ← match firstInScope s with
    | some p => deleteEntry s p.1.1 p.1.2
    | none => some s
  if intMin < s.currScope then some { s with currScope := s.currScope - 1 } else none

/-- `num_pages_req` in `createList`. -/
def numPagesReq (size : ℕ) : ℕ := ceilDiv (u64 (size * sizeofInt)) pageSize

/-- The allocation loop of `createList`: `n` times the top of the heap, as an
`unsigned long` page number. -/
def takePages : ℕ → List ℤ → Option (List ℕ × List ℤ)
  | 0, q => some ([], q)
  | _ + 1, [] => none
  | n + 1, z :: q => (takePages n q).map fun r => (toULong z :: r.1, r.2)

/-- `createList`. -/
def createList (s : State) (size : ℕ) (listName : String) : Option (State × ℤ) :=
  if s.symTable.numFreeEntries = 0 then some (s, -1)
  else if (find s.listMap (s.currScope, listName)).isSome then some (s, -1)
  else if s.mem.numFreePages < numPagesReq size then some (s, -1)
  else do
    let (pageMapping, freeList) ← takePages (numPagesReq size) s.mem.freeList
    let numFreePages := s.mem.numFreePages - numPagesReq size
    let s := { s with
      mem := { s.mem with freeList := freeList, numFreePages := numFreePages }
      maxPagesUsed := u64 (s.mem.capacity / pageSize + 2 ^ 64 - numFreePages) }
    let (s, entryNum) ← addEntry c s s.currScope listName pageMapping size
    if toULong entryNum = negOne then some (s, -1) else some (s, 1)

/-- `compute_mem_address`. -/
def computeMemAddress (s : State) (entryNum offset : ℕ) : Option ℕ :=
  if (s.symTable.entries entryNum).capacity ≤ offset then some negOne
  else do
    let pages ← (s.symTable.entries entryNum).listPages
    let page ← pages[u64 (offset * sizeofInt) / pageSize]?
    some (u64 (page * pageSize + u64 (offset * sizeofInt) % pageSize))

/-- The body of both branches of `assignVal`. -/
def assignEntry (s : State) (entryNum offset : ℕ) (value : ℤ) : Option State := do
  let address ← computeMemAddress s entryNum offset
  let entry := s.symTable.entries entryNum
  some ({ s with mem := { s.mem with mem := Function.update s.mem.mem address value } }.setEntry
    entryNum { entry with size := u64 (entry.size + 1) })

/-- The entry a list name stands for: in the current scope, else in the global one. -/
def resolve (s : State) (listName : String) : Option ℕ :=
  match find s.listMap (s.currScope, listName) with
  | some entryNum => some entryNum
  | none => find s.listMap (0, listName)

/-- `assignVal`. -/
def assignVal (s : State) (listName : String) (offset : ℕ) (value : ℤ) : Option State :=
  match resolve s listName with
  | some entryNum => assignEntry s entryNum offset value
  | none => some s

/-- `getVal`: what `*value` holds afterwards, if it held `value` before. -/
def getVal (s : State) (listName : String) (offset : ℕ) (value : ℤ) : Option ℤ :=
  match resolve s listName with
  | some entryNum => (computeMemAddress s entryNum offset).map s.mem.mem
  | none => some value

/-- `freeList`. The `int` counter of its loop overflows on vectors of `2^31` pages. -/
def freeList (s : State) (listName : String) : Option State :=
  match find s.listMap (s.currScope, listName) with
  | none => some s
  | some entryNum => do
    let pages ← (s.symTable.entries entryNum).listPages
    if (pages.length : ℤ) ≤ intMax then
      some { s with
        listMap := erase s.listMap (s.currScope, listName)
        mem := { s.mem with
          freeList := pages.foldl (fun q p => push q (toInt p)) s.mem.freeList
          numFreePages := u64 (s.mem.numFreePages + pages.length) }
        symTable :=
          { firstFreeEntry := entryNum
            numFreeEntries := s.symTable.numFreeEntries + 1
            entries := Function.update s.symTable.entries entryNum
              ⟨s.symTable.firstFreeEntry, 0, 0, some []⟩ } }
    else none

/-- The index `mem_Block::printMemPage` reads for the `i`-th value of a page. -/
def printMemIndex (pageNum i : ℕ) : ℕ := u64 (sizeofInt * u64 (pageNum * numElemPerPage + i))

/-- `mem_Block::printMemPage`: the values printed, or nothing for an invalid page. -/
def printMemPage (m : MemBlock) (pageNum : ℕ) : List ℤ :=
  if m.capacity / pageSize ≤ pageNum then []
  else (List.range numElemPerPage).map fun i => m.mem (printMemIndex pageNum i)

/-- The calls a program makes on the library after `createMem`. -/
inductive Op where
  | initScope
  | endScope
  | createList (size : ℕ) (listName : String)
  | assignVal (listName : String) (offset : ℕ) (value : ℤ)
  | getVal (listName : String) (offset : ℕ)
  | freeList (listName : String)

/-- One call. -/
def step (s : State) : Op → Option State
  | .initScope => initScope s
  | .endScope => endScope s
  | .createList size listName => (createList c s size listName).map Prod.fst
  | .assignVal listName offset value => assignVal s listName offset value
  | .getVal listName offset => (getVal s listName offset 0).map fun _ => s
  | .freeList listName => freeList s listName

end OsLab.Malloc
