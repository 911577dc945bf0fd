import Myria.Mm.Pmm
import Myria.Mm.TableForest

/-! What the memory-management files work on: physical memory, the page
allocator and their own statics. The code reaches physical memory by adding the
base of a window to a physical address (`KERNEL_VMA_BASE` in `vmm.c`, the
bootloader's direct map elsewhere); a window is taken to show all of physical
memory, so an access subtracts the base again, in `u64` arithmetic. -/
namespace Myria.Mm

open ByteMem RadixForest

structure MmState where
  mem : Mem
  pmm : Pmm
  cr3 : U64
  /-- `current_pml4` of `vmm.c`, a pointer -/
  currentPml4 : U64
  /-- `kernel_pml4_template_phys` of `user_as.c` -/
  kernelPml4TemplatePhys : U64
  /-- the offset in the bootloader's answer to the HHDM request, if there is one -/
  hhdmOffset : Option U64

namespace MmState

/-- `get_hhdm_base` of `paging.c` -/
def getHhdmBase (s : MmState) : U64 := s.hhdmOffset.getD 0xffff800000000000

/-- `phys_to_virt` of `paging.c` -/
def physToVirt (s : MmState) (physAddr : U64) : U64 := physAddr + s.getHhdmBase

/-- `table[idx]`, for a pointer into the window at `base`. -/
def load (s : MmState) (base table idx : U64) : U64 :=
  read64 s.mem (tableSlot table idx - base)

/-- `table[idx] = v` -/
def store (s : MmState) (base table idx v : U64) : MmState :=
  { s with mem := write64 s.mem (tableSlot table idx - base) v }

/-- `page[i] = v` for a byte pointer -/
def store8 (s : MmState) (base page i : U64) (v : BitVec 8) : MmState :=
  { s with mem := write8 s.mem (page + i - base) v }

theorem tableSlot_window (base t idx : U64) :
    tableSlot (t + base) idx - base = tableSlot t idx := by
  simp only [tableSlot]
  bv_omega

theorem load_window (s : MmState) (base t : U64) (i : BitVec 9) :
    s.load base (t + base) (i.setWidth 64) = entry s.mem t i := by
  rw [load, tableSlot_window, entry]

theorem store_window (s : MmState) (base t : U64) (i : BitVec 9) (v : U64) :
    s.store base (t + base) (i.setWidth 64) v = { s with mem := setEntry s.mem t i v } := by
  rw [store, tableSlot_window, setEntry]

/-- The 512-word loop over a table clears its frame. -/
theorem clearTable_eq (s : MmState) (base f : U64) :
    (List.range 512).foldl
      (fun s i => s.store base (f + base) (BitVec.ofNat 64 i) 0) s =
      { s with mem := zeroed s.mem f 4096 } := by
  have hfold : ∀ (is : List Nat) (s : MmState),
      is.foldl (fun s i => s.store base (f + base) (BitVec.ofNat 64 i) 0) s =
        { s with mem := is.foldl (fun m i => write64 m (f + 8 * BitVec.ofNat 64 i) 0) s.mem } := by
    intro is
    induction is with
    | nil => intro s; rfl
    | cons i is ih =>
      intro s
      rw [List.foldl_cons, ih, List.foldl_cons, store, tableSlot_window]
      rfl
  rw [hfold, clearWords_eq s.mem f (by decide)]

/-- A byte loop over the start of a page lays its bytes down there. -/
theorem fillPage_eq (s : MmState) (base f : U64) (g : Nat → BitVec 8) {n : Nat} (hn : n ≤ 4096) :
    (List.range n).foldl
      (fun s i => s.store8 base (f + base) (BitVec.ofNat 64 i) (g i)) s =
      { s with mem := filled s.mem f n g } := by
  have hfold : ∀ (is : List Nat) (s : MmState),
      is.foldl (fun s i => s.store8 base (f + base) (BitVec.ofNat 64 i) (g i)) s =
        { s with mem := is.foldl (fun m i => write8 m (f + BitVec.ofNat 64 i) (g i)) s.mem } := by
    intro is
    induction is with
    | nil => intro s; rfl
    | cons i is ih =>
      intro s
      have haddr : f + base + BitVec.ofNat 64 i - base = f + BitVec.ofNat 64 i := by bv_omega
      rw [List.foldl_cons, ih, List.foldl_cons, store8, haddr]
  rw [hfold, fillBytes_eq s.mem f g (by omega)]

/-- The 4096-byte loop over a page clears it too. -/
theorem clearPage_eq (s : MmState) (base f : U64) :
    (List.range 4096).foldl
      (fun s i => s.store8 base (f + base) (BitVec.ofNat 64 i) 0) s =
      { s with mem := zeroed s.mem f 4096 } := by
  rw [zeroed_eq_filled]
  exact fillPage_eq s base f (fun _ => 0) (Nat.le_refl _)

/-- Cleared memory, with the PML4 in the frame at `0x1000` and a fresh pool. -/
def blank : MmState where
  mem := fun _ => 0
  pmm := pmmInit ⟨[], 0, 0, 0, 0⟩
  cr3 := 0x1000
  currentPml4 := 0x1000 + kernelVmaBase
  kernelPml4TemplatePhys := 0
  hhdmOffset := none

theorem entry_blank (t : U64) (i : BitVec 9) : entry blank.mem t i = 0#64 := by
  simp [entry, read64, blank]

/-- Any memory contents under a fresh pool. -/
abbrev booted (m : Mem) : MmState := { blank with mem := m }

end MmState

/-! ## Taking a cleared page -/

theorem TakesPage.isFrame {p p' : Pmm} {f : U64} (h : TakesPage p f p') : IsFrame f := by
  obtain ⟨hal, -, hhi⟩ := h.isPage
  refine (isFrame_iff f).mpr ⟨hal, ?_⟩
  rw [BitVec.lt_def, pmmEndAddr_toNat] at hhi
  omega

/-- What both `alloc_page_table` and `alloc_zeroed_page_phys` do: fail with `0`
and no effect on an exhausted allocator, or take a page and clear it. -/
def AllocatesCleared (s : MmState) (r : U64 × MmState) : Prop :=
  (r = (0#64, s) ∧ s.pmm.Exhausted) ∨
    ∃ f p', r = (f, { s with mem := zeroed s.mem f 4096, pmm := p' }) ∧ TakesPage s.pmm f p'

end Myria.Mm
