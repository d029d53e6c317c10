import OsLab.Malloc.Memory

/-!
# `merge_sort` (`mergesort.cpp`)

The sort works on the cells of a list through `getVal` and `assignVal`, with a list `temp`
in a scope of its own at every level of the recursion. Its loop counters are
`unsigned int`; a counter below a bound cannot wrap, so that the loops terminate for every
input (`termination_by`). `ξ` gives the values of the `int` variables that are read by
`getVal` before anything was stored in them, one for each use.
-/

namespace OsLab.Malloc

open Lib

/-- Reduction to `unsigned int`. -/
def u32 (n : ℕ) : ℕ := n % 2 ^ 32

/-- What an uninitialised variable holds: its place in the text, the `start` and `n` of the
call, the iteration. -/
abbrev Uninit := ℕ → ℕ → ℕ → ℕ → ℤ

variable (c : Config) (ξ : ℕ → ℕ → ℤ) (listName : String)

/-- The first loop: the smaller of the two heads goes to `temp`, the right one on ties. -/
def mergeLoop (iEnd jEnd : ℕ) (s : State) (i j k : ℕ) : Option (State × ℕ × ℕ × ℕ) :=
  if i < iEnd ∧ j < jEnd then do
    let val1 ← getVal s listName i (ξ 0 k)
    let val2 ← getVal s listName j (ξ 1 k)
    if val1 < val2 then do
      let s ← assignVal s "temp" k val1
      mergeLoop iEnd jEnd s (i + 1) j (u32 (k + 1))
    else do
      let s ← assignVal s "temp" k val2
      mergeLoop iEnd jEnd s i (j + 1) (u32 (k + 1))
  else some (s, i, j, k)
termination_by (iEnd - i) + (jEnd - j)

/-- The second and the third loop: the rest of one half goes to `temp`. -/
def copyLoop (site iEnd : ℕ) (s : State) (i k : ℕ) : Option (State × ℕ) :=
  if i < iEnd then do
    let val ← getVal s listName i (ξ site k)
    let s ← assignVal s "temp" k val
    copyLoop site iEnd s (i + 1) (u32 (k + 1))
  else some (s, k)
termination_by iEnd - i

/-- The last loop: `temp` goes back to the list. -/
def copyBack (start iEnd : ℕ) (s : State) (i : ℕ) : Option State :=
  if i < iEnd then do
    let val ← getVal s "temp" (u32 (i + 2 ^ 32 - start)) (ξ 4 i)
    let s ← assignVal s listName i val
    copyBack start iEnd s (i + 1)
  else some s
termination_by iEnd - i

/-- `merge_sort`. -/
def mergeSort (ξ : Uninit) (s : State) (start n : ℕ) : Option State := do
  let s ← initScope s
  if n ≤ 1 then endScope s
  else do
    let mid := n / 2
    let s ← mergeSort ξ s start mid
    let s ← mergeSort ξ s (u32 (start + mid)) (n - mid)
    -- `temp` belongs to the scope of this call; the list is found in scope 0
    let (s, _) ← createList c s n "temp"
    let (s, i, j, k) ← mergeLoop (fun site => ξ site start n) listName (u32 (start + mid))
      (u32 (start + n)) s start (u32 (start + mid)) 0
    let (s, k) ← copyLoop (fun site => ξ site start n) listName 2 (u32 (start + mid)) s i k
    let (s, _) ← copyLoop (fun site => ξ site start n) listName 3 (u32 (start + n)) s j k
    let s ← copyBack (fun site => ξ site start n) listName start (u32 (start + n)) s start
    let s ← freeList s "temp"
    endScope s
termination_by n

end OsLab.Malloc
