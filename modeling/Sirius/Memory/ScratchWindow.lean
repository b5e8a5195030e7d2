import Sirius.Memory.Tables

/-! The scratch windows, `vmm_scratch_window.c`, in the page tables that `paging.c` lays end to end
from `PT_KERNEL_ADDRESS` on. There is an entry for each page from `KERNEL_VIRTUAL_BASE` on. -/
namespace Sirius.Memory
open Function

abbrev KernelTables := Nat → Entry

def kernelVirtualBase : Nat := 0xFFFFFFFF80000000
def vmmScratchIsolatedBase : Nat := 0xFFFFFFFF803F0000
def vmmScratchWindow0 : Nat := vmmScratchIsolatedBase + 4096

/-- `g_window_pt`, as the number of entries before it. -/
def windowPt : Nat := (vmmScratchIsolatedBase - kernelVirtualBase) / 4096 / 512 * 512

variable (tables : KernelTables) (phys : BitVec 64)

/-- The fields set are those of an entry for a table: `rw` is 1 and `us` 0. -/
def windowEntry (old : Entry) : Entry := tableEntry 2 phys old

def vmmScratchMapInternal (window : Int) : Nat × KernelTables :=
  if window < 0 ∨ 14 < window then (0, tables)
  else
    let ptIdx := vmmScratchWindow0 / 4096 % 512 + window.toNat
    -- the index is applied to a pointer that has it already
    let tables := update tables (windowPt + ptIdx + ptIdx) 0
    (vmmScratchWindow0 + window.toNat * 4096,
      update tables (windowPt + ptIdx) (windowEntry phys (tables (windowPt + ptIdx))))

def kernelPage (virt : Nat) : Nat := (virt - kernelVirtualBase) / 4096

def frameAt (virt : Nat) : Option Frame :=
  if present (tables (kernelPage virt)) then some (address (tables (kernelPage virt))) else none

/-- What a window is meant to change. -/
structure MapsOnly (tables next : KernelTables) (virt : Nat) (frame : Frame) : Prop where
  entries : ∀ i, i ≠ kernelPage virt → next i = tables i
  mapped : frameAt next virt = some frame
  others : ∀ other, kernelPage other ≠ kernelPage virt → frameAt next other = frameAt tables other

/-- The word that is cleared belongs to the page table behind the one of the windows. -/
theorem scratch_maps_only_window_iff (window : Nat) (known : window ≤ 14) :
    MapsOnly tables (vmmScratchMapInternal tables phys window).2 (vmmScratchMapInternal tables phys window).1
        (frameOf phys) ↔
      tables (windowPt + 2 * (497 + window)) = 0 := by
  have inside : ¬((window : Int) < 0 ∨ 14 < (window : Int)) := by omega
  have place : kernelPage (vmmScratchWindow0 + window * 4096) = windowPt + (497 + window) := by
    rw [kernelPage, show vmmScratchWindow0 = kernelVirtualBase + 1009 * 4096 by decide, show windowPt = 512 by decide]
    omega
  have index : vmmScratchWindow0 / 4096 % 512 = 497 := by decide
  simp only [vmmScratchMapInternal, if_neg inside, Int.toNat_natCast, index]
  rw [show windowPt + (497 + window) + (497 + window) = windowPt + 2 * (497 + window) by omega]
  constructor
  · intro only
    have kept := only.entries (windowPt + 2 * (497 + window)) (by rw [place]; omega)
    rw [update_of_ne (by omega), update_self] at kept
    exact kept.symm
  intro zero
  have cleared : update tables (windowPt + 2 * (497 + window)) 0 = tables := by rw [← zero, update_eq_self]
  rw [cleared]
  obtain ⟨there, leads⟩ := tableEntry_spec 2 phys (tables (windowPt + (497 + window)))
  refine ⟨fun i ne => update_of_ne (place ▸ ne) .., ?_, fun other ne => ?_⟩
  · rw [frameAt, place, update_self, windowEntry, if_pos there, leads]
  · rw [frameAt, frameAt, update_of_ne (place ▸ ne)]

/-- The pages of a kernel, which begin at the first frame. -/
def kernelOf (pages : Nat) : KernelTables := fun i => if i < pages then addrOf (BitVec.ofNat 40 i) ||| 3 else 0

/-- A kernel of 4 MB, whose last table is that of the windows. -/
theorem scratch_maps_only_window_first : frameAt (kernelOf 1024) 0xFFFFFFFF803FF000 = some 1023 ∧
    MapsOnly (kernelOf 1024) (vmmScratchMapInternal (kernelOf 1024) 0x5000 0).2
      (vmmScratchMapInternal (kernelOf 1024) 0x5000 0).1 (frameOf 0x5000) :=
  ⟨by decide, (scratch_maps_only_window_iff (kernelOf 1024) 0x5000 0 (by decide)).mpr rfl⟩

/-- A kernel of more than 6 MB loses the page 0xFFFFFFFF805E2000. -/
theorem scratch_window_unmaps_page : frameAt (kernelOf 2048) 0xFFFFFFFF805E2000 = some 1506 ∧
    frameAt (vmmScratchMapInternal (kernelOf 2048) 0x5000 0).2 0xFFFFFFFF805E2000 = none := by
  decide

end Sirius.Memory
