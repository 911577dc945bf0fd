import Myria.Lib.BitField

/-! The constants and address macros of `types.h`. Machine words are
`BitVec 64`, so every sum below wraps exactly where the C code's does. -/
namespace Myria

abbrev U64 := BitVec 64
abbrev U32 := BitVec 32

def pageSize : U64 := 0x1000

/-- `ALIGN_UP(x, align)`; the sum wraps. -/
def alignUp (x align : U64) : U64 := (x + align - 1) &&& ~~~(align - 1)

/-- `PAGE_ALIGN_DOWN` of `vmm.c`. -/
def pageAlignDown (addr : U64) : U64 := addr &&& ~~~(pageSize - 1)

def kernelVmaBase : U64 := 0xffffffff80000000

@[simp] theorem pageSize_toNat : pageSize.toNat = 4096 := rfl

theorem pageAlignDown_toNat (addr : U64) :
    (pageAlignDown addr).toNat = addr.toNat / 4096 * 4096 := by
  have hmask : ~~~(pageSize - 1) = BitVec.allOnes 64 <<< 12 := by decide
  rw [pageAlignDown, hmask, BitField.and_high_toNat]
  rfl

theorem alignUp_eight_toNat (x : U64) :
    (alignUp x 8).toNat = (x.toNat + 7) % 2 ^ 64 / 8 * 8 := by
  have hmask : ~~~((8 : U64) - 1) = BitVec.allOnes 64 <<< 3 := by decide
  have hsum : (x + 8 - 1).toNat = (x.toNat + 7) % 2 ^ 64 := by bv_omega
  rw [alignUp, hmask, BitField.and_high_toNat, hsum, show 2 ^ 3 = 8 from rfl]

end Myria
