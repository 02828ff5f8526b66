import Mathlib.Data.List.Chain
import Mathlib.Data.List.GetD
import MachVirtuTerm.Mach.Port
import MachVirtuTerm.Mach.VmParam

/-!
# Sizes of the tables of spaces

The sizes a space's table can have stand in the array `ipc_table_entries`. What
`ipc_table.h` demands of such an array is carried by the type: the sizes increase
strictly except that the last two agree, and no size exceeds the largest index.
-/

namespace MachVirtuTerm

/-- An array of `struct ipc_table_size`. -/
structure IpcTableSizes where
  /-- `its_size` of each element. -/
  itsSize : ℕ → ℕ
  /-- The number of elements. -/
  num : ℕ
  two_le : 2 ≤ num
  pos : 0 < itsSize 0
  strict : ∀ i, i + 2 < num → itsSize i < itsSize (i + 1)
  last : itsSize (num - 1) = itsSize (num - 2)
  le_index : itsSize (num - 1) ≤ machPortIndex machPortDead

/-- `sizeof(struct ipc_entry)`. -/
def sizeofIpcEntry : ℕ := 16

/-- `sizeof(struct ipc_tree_entry)`. -/
def sizeofIpcTreeEntry : ℕ := 32

/-- The first loop of `ipc_table_fill`: powers of two, up to the page size. The
elements filled so far are in reverse order. -/
def ipcTableFillPowers (num minsize elemsize : ℕ) : ℕ → ℕ → List ℕ → ℕ × List ℕ
  | 0, size, its => (size, its)
  | fuel + 1, size, its =>
    if its.length < num ∧ size < pageSize then
      ipcTableFillPowers num minsize elemsize fuel (2 * size)
        (if minsize ≤ size then size / elemsize :: its else its)
    else (size, its)

/-- The second loop of `ipc_table_fill`: increments of a page, then two pages, etc.,
15 of each. -/
def ipcTableFillPages (num minsize elemsize : ℕ) : ℕ → ℕ → ℕ → ℕ → List ℕ → List ℕ
  | 0, _, _, _, its => its
  | fuel + 1, incrsize, period, size, its =>
    if its.length < num then
      let its := if minsize ≤ size then size / elemsize :: its else its
      if period + 1 < 15 then
        ipcTableFillPages num minsize elemsize fuel incrsize (period + 1) (size + incrsize) its
      else
        ipcTableFillPages num minsize elemsize fuel
          (if incrsize < 8 * pageSize then 2 * incrsize else incrsize) 0 (size + incrsize) its
    else its

def ipcTableFill (num min elemsize : ℕ) : List ℕ :=
  let powers := ipcTableFillPowers num (min * elemsize) elemsize 12 1 []
  (ipcTableFillPages num (min * elemsize) elemsize num pageSize 0 powers.1 powers.2).reverse

def ipcTableEntriesSize : ℕ := 512

/-- The elements of `ipc_table_entries` but the last. -/
def ipcTableEntriesFilled : List ℕ := ipcTableFill (ipcTableEntriesSize - 1) 4 sizeofIpcEntry

/-- A list with strictly increasing elements, by index. -/
theorem getD_lt_of_isChain {l : List ℕ} (h : l.IsChain (· < ·)) {i : ℕ} (hi : i + 1 < l.length) :
    l.getD i 0 < l.getD (i + 1) 0 := by
  rw [List.getD_eq_getElem _ _ (by omega), List.getD_eq_getElem _ _ hi]
  exact List.isChain_iff_getElem.mp h i hi

set_option maxRecDepth 4000 in
theorem ipcTableEntriesFilled_checked :
    ipcTableEntriesFilled.IsChain (· < ·) ∧ ipcTableEntriesFilled.length = 511 ∧
      0 < ipcTableEntriesFilled.getD 0 0 ∧
      ipcTableEntriesFilled.getD 510 0 ≤ machPortIndex machPortDead := by
  decide +kernel

/-- `ipc_table_entries`, as `ipc_table_init` fills it: the last two elements have the
same size. -/
def ipcTableEntries : IpcTableSizes where
  itsSize i := ipcTableEntriesFilled.getD (min i 510) 0
  num := ipcTableEntriesSize
  two_le := by decide
  pos := ipcTableEntriesFilled_checked.2.2.1
  strict i hi := by
    have hi' : i + 2 < 512 := hi
    rw [min_eq_left (by omega), min_eq_left (by omega)]
    exact getD_lt_of_isChain ipcTableEntriesFilled_checked.1
      (by rw [ipcTableEntriesFilled_checked.2.1]; omega)
  last := rfl
  le_index := ipcTableEntriesFilled_checked.2.2.2

namespace IpcTableSizes

variable (sizes : IpcTableSizes)

/-- The sizes increase strictly up to the last but one. -/
theorem lt_of_lt {i j : ℕ} (hij : i < j) (hj : j + 1 < sizes.num) :
    sizes.itsSize i < sizes.itsSize j := by
  induction j with
  | zero => omega
  | succ j ih =>
    have hstep := sizes.strict j (by omega)
    rcases Nat.lt_succ_iff_lt_or_eq.mp hij with h | rfl
    · exact (ih h (by omega)).trans hstep
    · exact hstep

/-- The sizes do not decrease. -/
theorem le_of_le {i j : ℕ} (hij : i ≤ j) (hj : j < sizes.num) :
    sizes.itsSize i ≤ sizes.itsSize j := by
  rcases hij.lt_or_eq with h | rfl
  · by_cases hlast : j + 1 < sizes.num
    · exact (sizes.lt_of_lt h hlast).le
    · have htwo := sizes.two_le
      have hj' : j = sizes.num - 1 := by omega
      rw [hj', sizes.last]
      rcases (show i ≤ sizes.num - 2 by omega).lt_or_eq with h | h
      · exact (sizes.lt_of_lt h (by omega)).le
      · rw [h]
  · exact le_rfl

/-- Every size is positive. -/
theorem itsSize_pos {i : ℕ} (hi : i < sizes.num) : 0 < sizes.itsSize i :=
  sizes.pos.trans_le (sizes.le_of_le (Nat.zero_le i) hi)

/-- The index of `MACH_PORT_DEAD` is in no table. -/
theorem itsSize_lt {i : ℕ} (hi : i < sizes.num) : sizes.itsSize i < 2 ^ 24 := by
  have hle := (sizes.le_of_le (Nat.le_sub_one_of_lt hi) (by omega)).trans sizes.le_index
  exact hle.trans_lt (machPortIndex_lt _)

/-- An element followed by a larger one is not one of the last two. -/
theorem lt_of_size_lt {i : ℕ} (hi : i < sizes.num) (hi0 : 0 < i)
    (hne : sizes.itsSize (i - 1) ≠ sizes.itsSize i) : i + 1 < sizes.num := by
  by_contra h
  have htwo := sizes.two_le
  have hi' : i = sizes.num - 1 := by omega
  refine hne ?_
  rw [hi', sizes.last]
  rfl

end IpcTableSizes

end MachVirtuTerm
