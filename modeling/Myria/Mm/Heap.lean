import Myria.Lib.Runs
import Myria.Types

/-! The kernel heap of `vmm.c`: a bump pointer that starts at
`kernel_heap_start` and must stay below a 1 MiB limit. Both the rounding of the
size and the limit check are 64-bit sums close to the top of the address space,
so a request is only checked properly when neither of them wraps. -/
namespace Myria.Mm

def kernelHeapStart : U64 := kernelVmaBase + 0x1000000

def kernelHeapLimit : U64 := kernelHeapStart + 1024 * 1024

/-- `simple_heap_ptr`; `0` doubles as the not yet initialised marker. -/
structure Heap where
  simpleHeapPtr : U64
deriving DecidableEq, Repr

/-- The pointer after the initialisation on first use. -/
def Heap.ptr (h : Heap) : U64 :=
  if h.simpleHeapPtr = 0 then kernelHeapStart else h.simpleHeapPtr

/-- `NULL` is `0`. The pointer is initialised before the limit is checked, so
that write stays even when the request fails. -/
def kmalloc (h : Heap) (size : U64) : U64 × Heap :=
  if size = 0 then (0, h)
  -- both the rounding and this sum wrap
  else if kernelHeapLimit ≤ h.ptr + alignUp size 8 then (0, ⟨h.ptr⟩)
  else (h.ptr, ⟨h.ptr + alignUp size 8⟩)

/-- Both branches of `kfree` do nothing. -/
def kfree (h : Heap) (_ptr : U64) : Heap := h

@[simp] theorem kernelHeapStart_toNat : kernelHeapStart.toNat = 0xffffffff81000000 := rfl
@[simp] theorem kernelHeapLimit_toNat : kernelHeapLimit.toNat = 0xffffffff81100000 := rfl

/-! ## Requests and their results -/

/-- A request that was served: the pointer and the size asked for. -/
structure Block where
  ptr : U64
  size : U64
deriving DecidableEq, Repr

/-- The block's bytes as a mathematical interval inside the heap area, at an
8-byte aligned address. -/
def Block.InHeap (b : Block) : Prop :=
  b.ptr.toNat % 8 = 0 ∧ kernelHeapStart.toNat ≤ b.ptr.toNat ∧
    b.ptr.toNat + b.size.toNat ≤ kernelHeapStart.toNat + 2 ^ 20

def Block.Disjoint (b c : Block) : Prop :=
  b.ptr.toNat + b.size.toNat ≤ c.ptr.toNat ∨ c.ptr.toNat + c.size.toNat ≤ b.ptr.toNat

/-- The heap with all requests served since boot, newest first. -/
structure HeapHistory where
  heap : Heap
  blocks : List Block
deriving DecidableEq, Repr

def HeapHistory.boot : HeapHistory := ⟨⟨0⟩, []⟩

inductive HeapOp where
  | kmalloc (size : U64)
  | kfree (ptr : U64)
deriving DecidableEq, Repr

def heapStep (s : HeapHistory) : HeapOp → Option HeapHistory
  | .kmalloc size =>
    some ⟨(kmalloc s.heap size).2,
      if (kmalloc s.heap size).1 = 0 then s.blocks
      else ⟨(kmalloc s.heap size).1, size⟩ :: s.blocks⟩
  | .kfree ptr => some { s with heap := kfree s.heap ptr }

/-- Every result so far lies in the heap area and no two overlap. -/
def HeapHistory.Safe (s : HeapHistory) : Prop :=
  (∀ b ∈ s.blocks, b.InHeap) ∧ s.blocks.Pairwise Block.Disjoint

/-- The rounded request added to the heap pointer stays below `2^64`. -/
def HeapHistory.SumFits (s : HeapHistory) : HeapOp → Prop
  | .kmalloc size => s.heap.ptr.toNat + (size.toNat + 7) / 8 * 8 < 2 ^ 64
  | .kfree _ => True

instance (s : HeapHistory) : (op : HeapOp) → Decidable (s.SumFits op)
  | .kmalloc _ => inferInstanceAs (Decidable (_ < _))
  | .kfree _ => inferInstanceAs (Decidable True)

/-! ## The invariant -/

/-- The heap pointer is aligned and below the limit, and the blocks served so
far lie below it. -/
structure HeapHistory.Inv (s : HeapHistory) : Prop where
  aligned : s.heap.ptr.toNat % 8 = 0
  start_le : kernelHeapStart.toNat ≤ s.heap.ptr.toNat
  lt_limit : s.heap.ptr.toNat < kernelHeapLimit.toNat
  inHeap : ∀ b ∈ s.blocks, b.InHeap
  below : ∀ b ∈ s.blocks, b.ptr.toNat + b.size.toNat ≤ s.heap.ptr.toNat
  disjoint : s.blocks.Pairwise Block.Disjoint

theorem HeapHistory.boot_inv : HeapHistory.boot.Inv :=
  ⟨by decide, by decide, by decide, by simp [boot], by simp [boot], by simp [boot]⟩

theorem HeapHistory.Inv.safe {s : HeapHistory} (h : s.Inv) : s.Safe := ⟨h.inHeap, h.disjoint⟩

theorem HeapHistory.Inv.ptr_ne_zero {s : HeapHistory} (h : s.Inv) : s.heap.ptr ≠ 0 := by
  intro h0
  have hlo := h.start_le
  rw [h0] at hlo
  simp at hlo

theorem heapStep_served {s : HeapHistory} {size p : U64} (hr : (kmalloc s.heap size).1 = p)
    (hp : p ≠ 0) :
    heapStep s (.kmalloc size) = some ⟨(kmalloc s.heap size).2, ⟨p, size⟩ :: s.blocks⟩ := by
  simp only [heapStep, hr, if_neg hp]

/-- The initialised pointer is never the marker value again. -/
theorem Heap.ptr_mk_of_le {p : U64} (h : kernelHeapStart.toNat ≤ p.toNat) :
    (Heap.mk p).ptr = p := by
  have hne : p ≠ 0 := by
    rintro rfl
    simp at h
  exact if_neg hne

theorem alignUp_eight_of_fits {size : U64} (h : size.toNat + 7 < 2 ^ 64) :
    (alignUp size 8).toNat = (size.toNat + 7) / 8 * 8 := by
  rw [alignUp_eight_toNat, Nat.mod_eq_of_lt h]

/-- A request whose sum does not wrap either fails or takes exactly the next
bytes. -/
theorem kmalloc_cases {s : HeapHistory} (hI : s.Inv) {size : U64}
    (hfit : s.SumFits (.kmalloc size)) :
    (kmalloc s.heap size).1 = 0 ∧ (kmalloc s.heap size).2.ptr = s.heap.ptr ∨
    (kmalloc s.heap size).1 = s.heap.ptr ∧
      (kmalloc s.heap size).2.ptr.toNat = s.heap.ptr.toNat + (size.toNat + 7) / 8 * 8 ∧
      (kmalloc s.heap size).2.ptr.toNat < kernelHeapLimit.toNat := by
  have hlo := hI.start_le
  have hhi := hI.lt_limit
  simp only [HeapHistory.SumFits] at hfit
  have hup : (alignUp size 8).toNat = (size.toNat + 7) / 8 * 8 := by
    simp only [kernelHeapStart_toNat] at hlo
    exact alignUp_eight_of_fits (by omega)
  have hsum : (s.heap.ptr + alignUp size 8).toNat =
      s.heap.ptr.toNat + (size.toNat + 7) / 8 * 8 := by
    rw [BitVec.toNat_add, hup, Nat.mod_eq_of_lt hfit]
  unfold kmalloc
  by_cases h0 : size = 0
  · rw [if_pos h0]
    exact .inl ⟨rfl, rfl⟩
  by_cases hlim : kernelHeapLimit ≤ s.heap.ptr + alignUp size 8
  · rw [if_neg h0, if_pos hlim]
    exact .inl ⟨rfl, Heap.ptr_mk_of_le hlo⟩
  · have hptr : (Heap.mk (s.heap.ptr + alignUp size 8)).ptr = s.heap.ptr + alignUp size 8 :=
      Heap.ptr_mk_of_le (by omega)
    rw [if_neg h0, if_neg hlim]
    refine .inr ⟨rfl, by rw [hptr, hsum], ?_⟩
    rw [hptr]
    rw [BitVec.le_def] at hlim
    omega

theorem HeapHistory.Inv.kmalloc {s s' : HeapHistory} (hI : s.Inv) {size : U64}
    (hfit : s.SumFits (.kmalloc size)) (hs : heapStep s (.kmalloc size) = some s') : s'.Inv := by
  have hne := hI.ptr_ne_zero
  rcases kmalloc_cases hI hfit with ⟨hz, hp⟩ | ⟨hr, hp, hlim⟩
  · obtain ⟨hal, hlo, hhi, hin, hbelow, hdis⟩ := hI
    simp only [heapStep, hz, if_true] at hs
    cases Option.some.inj hs
    exact ⟨by rwa [hp], by rwa [hp], by rwa [hp], hin, by rwa [hp], hdis⟩
  · rw [heapStep_served hr hne] at hs
    cases Option.some.inj hs
    obtain ⟨hal, hlo, hhi, hin, hbelow, hdis⟩ := hI
    simp only [kernelHeapStart_toNat, kernelHeapLimit_toNat] at hlo hlim
    -- the new block ends at or below the new pointer, which is below the limit
    have hend : s.heap.ptr.toNat + size.toNat ≤ (Mm.kmalloc s.heap size).2.ptr.toNat := by omega
    refine ⟨by simp only; omega, by simp; omega, by simpa using hlim, ?_, ?_, ?_⟩
    · intro b hb
      rcases List.mem_cons.mp hb with rfl | hb
      · exact ⟨hal, by simpa using hlo, by simp; omega⟩
      · exact hin b hb
    · intro b hb
      rcases List.mem_cons.mp hb with rfl | hb
      · exact hend
      · have := hbelow b hb
        simp only
        omega
    · exact List.pairwise_cons.mpr ⟨fun b hb => .inr (hbelow b hb), hdis⟩

/-- The newest block may be forgotten. -/
theorem HeapHistory.Inv.tail {heap : Heap} {b : Block} {bs : List Block}
    (h : HeapHistory.Inv ⟨heap, b :: bs⟩) : HeapHistory.Inv ⟨heap, bs⟩ where
  aligned := h.aligned
  start_le := h.start_le
  lt_limit := h.lt_limit
  inHeap c hc := h.inHeap c (List.mem_cons_of_mem _ hc)
  below c hc := h.below c (List.mem_cons_of_mem _ hc)
  disjoint := (List.pairwise_cons.mp h.disjoint).2

/-- A request by other code leaves the recorded blocks below the pointer. -/
theorem HeapHistory.Inv.advance {s : HeapHistory} (hI : s.Inv) {size : U64}
    (hfit : s.SumFits (.kmalloc size)) :
    HeapHistory.Inv ⟨(Mm.kmalloc s.heap size).2, s.blocks⟩ ∧
      s.heap.ptr.toNat ≤ (Mm.kmalloc s.heap size).2.ptr.toNat := by
  refine ⟨?_, ?_⟩
  · by_cases hz : (Mm.kmalloc s.heap size).1 = 0
    · refine hI.kmalloc hfit ?_
      simp only [heapStep, hz, if_true]
    · exact (hI.kmalloc hfit (heapStep_served rfl hz)).tail
  · rcases kmalloc_cases hI hfit with ⟨-, hp⟩ | ⟨-, hp, -⟩
    · rw [hp]
    · rw [hp]
      exact Nat.le_add_right _ _

/-- A request whose sum wraps is served although the heap has no room for it. -/
theorem kmalloc_wrapped {s : HeapHistory} (hI : s.Inv) {size : U64}
    (hwrap : ¬ s.SumFits (.kmalloc size)) :
    (kmalloc s.heap size).1 = s.heap.ptr ∧ ¬ Block.InHeap ⟨s.heap.ptr, size⟩ := by
  have hlo := hI.start_le
  have hhi := hI.lt_limit
  have hsize := size.isLt
  simp only [HeapHistory.SumFits, kernelHeapStart_toNat, kernelHeapLimit_toNat] at hwrap hlo hhi
  refine ⟨?_, ?_⟩
  · have h0 : size ≠ 0 := by
      rintro rfl
      simp at hwrap
      omega
    -- the wrapped sum is far below the heap, which the limit check does not notice
    have hlim : ¬ kernelHeapLimit ≤ s.heap.ptr + alignUp size 8 := by
      rw [BitVec.le_def, BitVec.toNat_add, alignUp_eight_toNat, kernelHeapLimit_toNat]
      omega
    rw [kmalloc, if_neg h0, if_neg hlim]
  · rintro ⟨-, -, hend⟩
    simp only [kernelHeapStart_toNat] at hend
    omega

/-- **Heap safety, exactly.** Along a run of `kmalloc` and `kfree` calls every
result lies in the heap area and no two results overlap if and only if no
request was made whose rounded size wraps when added to the heap pointer. -/
theorem kmalloc_safe_iff_sums_fit (ops : List HeapOp) (t : HeapHistory)
    (hrun : Runs.run heapStep HeapHistory.boot ops = some t) :
    Runs.Always heapStep HeapHistory.boot HeapHistory.Safe ops ↔
      Runs.StepsMeet heapStep HeapHistory.boot HeapHistory.SumFits ops := by
  refine Runs.always_iff_stepsMeet HeapHistory.boot_inv (fun _ h => h.safe) ?_ ?_ hrun
  · intro s op s' hI hfit hs
    cases op with
    | kmalloc size => exact hI.kmalloc hfit hs
    | kfree ptr =>
      cases Option.some.inj hs
      exact hI
  · intro s op s' hI hwrap hs hsafe
    cases op with
    | kmalloc size =>
      obtain ⟨hr, hout⟩ := kmalloc_wrapped hI hwrap
      rw [heapStep_served hr hI.ptr_ne_zero] at hs
      cases Option.some.inj hs
      exact hout (hsafe.1 _ List.mem_cons_self)
    | kfree ptr => exact hwrap trivial

/-- Two requests are served, side by side and with a free in between, and one that is larger
than the heap is refused: safe, as all the sums fit. -/
theorem kmalloc_safe_refusal :
    Runs.run heapStep HeapHistory.boot
        [.kmalloc 100, .kfree kernelHeapStart, .kmalloc 64, .kmalloc 0x100000] =
      some ⟨⟨kernelHeapStart + 168⟩, [⟨kernelHeapStart + 104, 64⟩, ⟨kernelHeapStart, 100⟩]⟩ ∧
    Runs.Always heapStep HeapHistory.boot HeapHistory.Safe
      [.kmalloc 100, .kfree kernelHeapStart, .kmalloc 64, .kmalloc 0x100000] := by
  have hrun : Runs.run heapStep HeapHistory.boot
      [.kmalloc 100, .kfree kernelHeapStart, .kmalloc 64, .kmalloc 0x100000] =
      some ⟨⟨kernelHeapStart + 168⟩, [⟨kernelHeapStart + 104, 64⟩, ⟨kernelHeapStart, 100⟩]⟩ := by
    decide
  refine ⟨hrun, (kmalloc_safe_iff_sums_fit _ _ hrun).mpr ?_⟩
  have hfirst : heapStep HeapHistory.boot (.kmalloc 100) =
      some ⟨⟨kernelHeapStart + 104⟩, [⟨kernelHeapStart, 100⟩]⟩ := by decide
  have hlast : heapStep ⟨⟨kernelHeapStart + 104⟩, [⟨kernelHeapStart, 100⟩]⟩ (.kmalloc 64) =
      some ⟨⟨kernelHeapStart + 168⟩, [⟨kernelHeapStart + 104, 64⟩, ⟨kernelHeapStart, 100⟩]⟩ := by
    decide
  exact .cons (by decide) hfirst (.cons trivial rfl (.cons (by decide) hlast
    (.cons (by decide) rfl (.nil _ _ _))))

/-- Two requests of `2^64 - 1` bytes are both served, with one and the same
pointer, from a heap of 1 MiB. -/
theorem kmalloc_unsafe_at_max_size :
    Runs.run heapStep HeapHistory.boot
        [.kmalloc 0xffffffffffffffff, .kmalloc 0xffffffffffffffff] =
      some ⟨⟨kernelHeapStart⟩, [⟨kernelHeapStart, 0xffffffffffffffff⟩,
        ⟨kernelHeapStart, 0xffffffffffffffff⟩]⟩ ∧
    ¬ HeapHistory.Safe ⟨⟨kernelHeapStart⟩, [⟨kernelHeapStart, 0xffffffffffffffff⟩,
        ⟨kernelHeapStart, 0xffffffffffffffff⟩]⟩ := by
  refine ⟨by decide, fun h => ?_⟩
  obtain ⟨-, -, hend⟩ := h.1 _ List.mem_cons_self
  exact absurd hend (by decide)

end Myria.Mm
