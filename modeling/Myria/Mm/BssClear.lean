import Myria.Lib.Loop
import Myria.Mm.BssPermissions
import Myria.Mm.FrameEffect
import Myria.Mm.UserIsolation
import Myria.Mm.UserMapping
import Myria.Mm.VirtualMemory

/-! The first thing `x86_early_init` of `minimal_test.c` does: `setup_kernel_page_tables`
makes `.data` and `.bss` writable and `activate_kernel_page_tables` clears `.bss`, in
chunks of a page. All stores go through the page tables that were just changed, so what
has to be seen is that none faults and that none lands in a table. Left out: the serial
messages and the TLB flush. -/
namespace Myria.Mm

open ByteMem RadixForest Trace

/-- `setup_kernel_page_tables`, with the answer it reads from CR3. -/
def setupKernelPageTables (s : MmState) (dataStart bssEnd : U64) : Option (U64 × MmState) :=
  (enableBssWritePermissions s dataStart bssEnd).map fun s => (s.cr3, s)

/-- `bss_ptr[..] = 0` at virtual address `va`; `none` is a page fault. -/
def clearByte (s : MmState) (va : U64) : Option MmState :=
  (storeByte (.start s) va 0).map Traced.now

/-- The inner loop. -/
def clearChunk (s : MmState) (ptr : U64) (n : ℕ) : Option MmState :=
  (List.range n).foldlM (fun s j => clearByte s (ptr + BitVec.ofNat 64 j)) s

def chunkSize (bssSize i : U64) : U64 := if bssSize - i < 4096 then bssSize - i else 4096

/-- One round of the outer loop, on its counter and the memory. -/
def clearRound (bssPtr bssSize : U64) : U64 × MmState → Option (Loop.Round (U64 × MmState))
  | (i, s) =>
    if i < bssSize then
      (clearChunk s (bssPtr + i) (chunkSize bssSize i).toNat).map fun s => .next (i + 4096, s)
    else some (.exit (i, s))

/-- At most `fuel` rounds of the outer loop. -/
def activateKernelPageTables (s : MmState) (pml4Phys bssStart bssEnd : U64) (fuel : ℕ) :
    Option (Loop.Round (U64 × MmState)) :=
  let s := { s with cr3 := pml4Phys }
  let bssSize := bssEnd - bssStart
  -- one byte first, whatever the size
  (clearByte s bssStart).bind fun s => Loop.exec (clearRound bssStart bssSize) fuel (0, s)

/-! ## Bytes behind virtual addresses -/

/-- Where the byte at `va` is in physical memory. -/
def MmState.physOf (s : MmState) (va : U64) : Option U64 := Mm.physOf s.mem (pteToPhys s.cr3) va

/-- The byte that the kernel reads at `va`. -/
def MmState.kernelByte (s : MmState) (va : U64) : Option (BitVec 8) := (s.physOf va).map s.mem

/-- The kernel can write the bytes `B`, and none of them is in one of the page tables. -/
structure Clearable (s : MmState) (B : U64 → Prop) : Prop where
  writable : ∀ va, B va → ∃ tr, hwTranslate s.mem (pteToPhys s.cr3) (vpn va) = some tr ∧
    tr.writable = true
  apart : ∀ va x, B va → s.physOf va = some x → ¬ s.IsTable (pteToPhys s.cr3) (pageAlignDown x)

/-- `s'` is `s` with the bytes `P` cleared. -/
structure Cleared (s : MmState) (P : U64 → Prop) (s' : MmState) : Prop where
  others : s' = { s with mem := s'.mem }
  zero : ∀ va x, P va → s.physOf va = some x → s'.mem x = 0
  kept : ∀ x, (∀ va, P va → s.physOf va ≠ some x) → s'.mem x = s.mem x

section

variable {s s' : MmState} {B P : U64 → Prop} {va : U64}

theorem Cleared.refl (s : MmState) : Cleared s (fun _ => False) s :=
  ⟨rfl, fun _ _ h => h.elim, fun _ _ => rfl⟩

theorem Cleared.congr {Q : U64 → Prop} (h : Cleared s P s') (hPQ : ∀ va, P va ↔ Q va) :
    Cleared s Q s' := by
  obtain rfl : P = Q := funext fun va => propext (hPQ va)
  exact h

/-- Clearing does not change a translation. -/
theorem Cleared.translate (h : Cleared s P s') (hB : Clearable s B) (hP : ∀ va, P va → B va)
    (v : BitVec 36) :
    hwTranslate s'.mem (pteToPhys s.cr3) v = hwTranslate s.mem (pteToPhys s.cr3) v := by
  have hchanged : ChangedOnlyIn (fun f => ¬ s.IsTable (pteToPhys s.cr3) f) s.mem s'.mem := by
    intro x hx htable
    refine hx (h.kept x fun va hva hphys => ?_)
    exact hB.apart va x (hP va hva) hphys htable
  have hentry : ∀ t, IsFrame t → s.IsTable (pteToPhys s.cr3) t →
      ∀ j, entry s'.mem t j = entry s.mem t j :=
    fun t ht htable j => hchanged.entry_eq ht (not_not.mpr htable) j
  refine hwTranslate_congr ?_ fun p t hp hw j => ?_
  · exact hentry _ (pteToPhys_isFrame _) ⟨_, [], rfl, Nat.zero_le 3, rfl⟩ _
  · exact hentry t (isFrame_of_walk_cons hw) ⟨_, slot4 v :: p, rfl, Nat.succ_le_succ hp, hw⟩ j

theorem Cleared.physOf (h : Cleared s P s') (hB : Clearable s B) (hP : ∀ va, P va → B va)
    (va : U64) :
    s'.physOf va = s.physOf va := by
  have hcr3 : s'.cr3 = s.cr3 := by rw [h.others]
  rw [MmState.physOf, hcr3, Mm.physOf, h.translate hB hP]
  rfl

/-- One store clears one byte more. -/
theorem Cleared.clearByte (h : Cleared s P s') (hB : Clearable s B) (hP : ∀ va, P va → B va)
    (hva : B va) : ∃ s'', clearByte s' va = some s'' ∧ Cleared s (fun x => P x ∨ x = va) s'' := by
  obtain ⟨tr, htr, hw⟩ := hB.writable va hva
  have hcr3 : s'.cr3 = s.cr3 := by rw [h.others]
  have htr' : hwTranslate s'.mem (pteToPhys s'.cr3) (vpn va) = some tr := by
    rw [hcr3, h.translate hB hP, htr]
  have hphys : s.physOf va = some (tr.frame ||| (va &&& 0xfff)) := physOf_eq htr
  refine ⟨{ s' with mem := write8 s'.mem (tr.frame ||| (va &&& 0xfff)) 0 }, ?_, ?_, ?_, ?_⟩
  · simp only [Mm.clearByte, storeByte, Traced.start, htr', hw, if_true, Option.map_some,
      Traced.now_put]
  · conv_lhs => rw [h.others]
  · intro x y hx hy
    by_cases hy' : y = tr.frame ||| (va &&& 0xfff)
    · exact if_pos hy'
    · refine (if_neg hy').trans (h.zero x y (hx.resolve_right ?_) hy)
      rintro rfl
      exact hy' (Option.some.inj (hy.symm.trans hphys))
  · intro x hx
    have hne : x ≠ tr.frame ||| (va &&& 0xfff) := by
      rintro rfl
      exact hx va (.inr rfl) hphys
    exact (if_neg hne).trans (h.kept x fun va' hva' => hx va' (.inl hva'))

/-- A chunk is cleared byte by byte. -/
theorem Cleared.clearChunk (h : Cleared s P s') (hB : Clearable s B) (hP : ∀ va, P va → B va)
    (ptr : U64) {n : ℕ} (hn : n < 2 ^ 64) (hin : ∀ va : U64, (va - ptr).toNat < n → B va) :
    ∃ s'', clearChunk s' ptr n = some s'' ∧ Cleared s (fun x => P x ∨ (x - ptr).toNat < n) s'' := by
  induction n with
  | zero => exact ⟨s', rfl, h.congr fun va => by simp⟩
  | succ n ih =>
    obtain ⟨s₁, hchunk, h₁⟩ := ih (by omega) fun va hva => hin va (by omega)
    have hlast : (ptr + BitVec.ofNat 64 n - ptr).toNat = n := by
      have hn' : (BitVec.ofNat 64 n).toNat = n := by
        rw [BitVec.toNat_ofNat]
        omega
      bv_omega
    obtain ⟨s₂, hbyte, h₂⟩ := h₁.clearByte hB
      (fun va hva => hva.elim (hP va) fun hva => hin va (by omega))
      (hin (ptr + BitVec.ofNat 64 n) (by omega))
    refine ⟨s₂, ?_, h₂.congr fun x => ?_⟩
    · rw [Mm.clearChunk, List.range_succ, List.foldlM_append, ← Mm.clearChunk, hchunk]
      simpa using hbyte
    · have hx : x = ptr + BitVec.ofNat 64 n ↔ (x - ptr).toNat = n := by
        constructor
        · rintro rfl
          exact hlast
        · intro hx
          bv_omega
      rw [hx, or_assoc, Nat.lt_succ_iff_lt_or_eq]

end

/-! ## The loop -/

section Loop

variable {s s' : MmState} {P : U64 → Prop} {bssPtr bssSize : U64}

theorem chunkSize_toNat {i : U64} (hi : i < bssSize) :
    (chunkSize bssSize i).toNat = min (bssSize.toNat - i.toNat) 4096 := by
  rw [BitVec.lt_def] at hi
  have hsub : (bssSize - i).toNat = bssSize.toNat - i.toNat := by bv_omega
  have hpage : (4096 : U64).toNat = 4096 := rfl
  rw [chunkSize]
  split
  · rename_i hlt
    rw [BitVec.lt_def, hsub, hpage] at hlt
    omega
  · rename_i hlt
    rw [BitVec.lt_def, hsub, hpage] at hlt
    omega

/-- The outer loop, from counter `i` on, clears the rest. -/
theorem Cleared.clearLoop (hB : Clearable s fun va => (va - bssPtr).toNat < bssSize.toNat)
    (hP : ∀ va, P va → (va - bssPtr).toNat < bssSize.toNat) (hsize : bssSize.toNat + 4095 < 2 ^ 64)
    {n : ℕ} {i : U64} (hn : bssSize.toNat ≤ i.toNat + 4096 * n)
    (h : Cleared s (fun va => P va ∨ (va - bssPtr).toNat < min i.toNat bssSize.toNat) s') :
    ∃ i' s'', Loop.exec (clearRound bssPtr bssSize) (n + 1) (i, s') = some (.exit (i', s'')) ∧
      Cleared s (fun va => (va - bssPtr).toNat < bssSize.toNat) s'' := by
  have hexit : ∀ (n : ℕ) {i : U64} {s' : MmState}, ¬ i < bssSize →
      Cleared s (fun va => P va ∨ (va - bssPtr).toNat < min i.toNat bssSize.toNat) s' →
      ∃ i' s'', Loop.exec (clearRound bssPtr bssSize) (n + 1) (i, s') = some (.exit (i', s'')) ∧
        Cleared s (fun va => (va - bssPtr).toNat < bssSize.toNat) s'' := by
    intro n i s' hi h
    have hround : clearRound bssPtr bssSize (i, s') = some (.exit (i, s')) := if_neg hi
    refine ⟨i, s', Loop.exec_succ_of_exit hround n, h.congr fun va => ?_⟩
    rw [BitVec.lt_def] at hi
    rw [min_eq_right (by omega)]
    exact ⟨fun hva => hva.elim (hP va) id, .inr⟩
  induction n generalizing i s' with
  | zero =>
    refine hexit 0 ?_ h
    rw [BitVec.lt_def]
    omega
  | succ n ih =>
    by_cases hi : i < bssSize
    swap
    · exact hexit (n + 1) hi h
    have hchunkSize := chunkSize_toNat hi
    have hlt := hi
    rw [BitVec.lt_def] at hlt
    have hnext : (i + 4096).toNat = i.toNat + 4096 := by
      have hpage : (4096 : U64).toNat = 4096 := rfl
      rw [BitVec.toNat_add, hpage]
      omega
    -- the chunk continues what is cleared so far
    have hjoin : ∀ va : U64, (va - bssPtr).toNat < i.toNat ∨
        (va - (bssPtr + i)).toNat < min (bssSize.toNat - i.toNat) 4096 ↔
          (va - bssPtr).toNat < min (i.toNat + 4096) bssSize.toNat := by
      intro va
      have hoff : va - (bssPtr + i) = va - bssPtr - i := by bv_omega
      rw [hoff]
      generalize va - bssPtr = off
      bv_omega
    have hin : ∀ va : U64, (va - (bssPtr + i)).toNat < min (bssSize.toNat - i.toNat) 4096 →
        (va - bssPtr).toNat < bssSize.toNat := by
      intro va hva
      have hva' := (hjoin va).mp (.inr hva)
      omega
    obtain ⟨s₁, hchunk, h₁⟩ := h.clearChunk hB
      (fun va hva => hva.elim (hP va) fun hva => by omega) (bssPtr + i) (by omega) hin
    have hround : clearRound bssPtr bssSize (i, s') = some (.next (i + 4096, s₁)) := by
      rw [clearRound, if_pos hi, hchunkSize, hchunk]
      rfl
    rw [Loop.exec_succ_of_next hround]
    refine ih (by omega) (h₁.congr fun va => ?_)
    rw [hnext, ← hjoin, min_eq_left (Nat.le_of_lt hlt), or_assoc]

end Loop

/-! ## After the permissions were changed -/

section Granted

variable {A : U64 → Prop} {m m' : Mem}

/-- No walk looks at the writable bit. -/
theorem RelaxedAt.walk_tableRef (h : RelaxedAt A m m') {t : U64} (ht : IsFrame t)
    (p : List (BitVec 9)) :
    walk (child tableRef m') t p = walk (child tableRef m) t p := by
  induction p generalizing t with
  | nil => rw [walk, walk]
  | cons i p ih =>
    have hchild : child tableRef m' t i = child tableRef m t i := by
      have hpresent := h.hasFlag ht i not_hasFlag_writable_present
      have hhuge := h.hasFlag ht i not_hasFlag_writable_hugePage
      rw [child, child, tableRef, tableRef, h.pteToPhys ht i]
      exact if_congr (and_congr hpresent (not_congr hhuge)) rfl rfl
    rw [walk, walk, hchild]
    cases hnext : child tableRef m t i with
    | none => rw [Option.bind_none, Option.bind_none]
    | some t' =>
      rw [child, tableRef] at hnext
      split at hnext
      · cases hnext
        exact ih (pteToPhys_isFrame _)
      · cases hnext

variable {s s' : MmState} {vas : List U64}

theorem LeavesGranted.isTable (h : LeavesGranted s s' vas) {t : U64} :
    s'.IsTable (pteToPhys s'.cr3) t ↔ s.IsTable (pteToPhys s.cr3) t := by
  have hcr3 : s'.cr3 = s.cr3 := by rw [h.others]
  rw [hcr3]
  have hwalk := fun p => h.memory.walk_tableRef (pteToPhys_isFrame s.cr3) p
  constructor
  · rintro ⟨r, p, rfl, hp, hw⟩
    exact ⟨_, p, rfl, hp, (hwalk p).symm.trans hw⟩
  · rintro ⟨r, p, rfl, hp, hw⟩
    exact ⟨_, p, rfl, hp, (hwalk p).trans hw⟩

theorem LeavesGranted.physOf (h : LeavesGranted s s' vas) (va : U64) :
    s'.physOf va = s.physOf va := by
  have hcr3 : s'.cr3 = s.cr3 := by rw [h.others]
  have hframe := congrArg (Option.map Translation.frame)
    (h.memory.hwTranslate (pteToPhys_isFrame s.cr3) (vpn va))
  rw [Option.map_map, Option.map_map] at hframe
  change Option.map Translation.frame _ = Option.map Translation.frame _ at hframe
  have hphys := congrArg (Option.map (· ||| (va &&& 0xfff))) hframe
  rw [Option.map_map, Option.map_map] at hphys
  rw [MmState.physOf, hcr3]
  exact hphys

end Granted

/-- The bytes from `start` up to `stop`. -/
def Between (start stop va : U64) : Prop := (va - start).toNat < (stop - start).toNat

/-- **Boot clears `.bss` and nothing else.** Suppose the walks of
`enable_bss_write_permissions` succeed, the bootloader left the entries above the leaves
writable, and no byte of `.bss` is in a page table. Then no store of
`activate_kernel_page_tables` faults and its loop ends. Afterwards the kernel reads zero
at every address of `.bss`, no byte of memory behind other addresses has changed, and
neither has any translation. -/
theorem bss_cleared_at_boot {s s₁ : MmState} {dataStart bssStart bssEnd pml4Phys : U64}
    (hdata : dataStart ≤ bssStart) (hbss : bssStart < bssEnd)
    (hstop : bssEnd.toNat + 0xFFF < 2 ^ 64)
    (hsetup : setupKernelPageTables s dataStart bssEnd = some (pml4Phys, s₁))
    (habove : ∀ va w, InPageRange dataStart bssEnd va → walkVaToLeaf s va .unset = (true, w) →
      (∀ q ∈ w.above, HasFlag (s.deref q) pteWritable) ∧ ¬ HasFlag (s.deref w.pml4e) pteHugePage)
    (hapart : ∀ va x, Between bssStart bssEnd va → s.physOf va = some x →
      ¬ s.IsTable (pteToPhys s.cr3) (pageAlignDown x)) :
    ∃ s₂, (∀ fuel, (bssEnd - bssStart).toNat / 4096 + 1 < fuel →
        ∃ i, activateKernelPageTables s₁ pml4Phys bssStart bssEnd fuel = some (.exit (i, s₂))) ∧
      (∀ va, Between bssStart bssEnd va → s₂.kernelByte va = some 0) ∧
      (∀ x, (∀ va, Between bssStart bssEnd va → s₁.physOf va ≠ some x) → s₂.mem x = s₁.mem x) ∧
      ∀ v, hwTranslate s₂.mem (pteToPhys s₂.cr3) v = hwTranslate s₁.mem (pteToPhys s₁.cr3) v := by
  obtain ⟨s₁', henable, heq⟩ := Option.map_eq_some_iff.mp hsetup
  obtain ⟨rfl, rfl⟩ : s₁'.cr3 = pml4Phys ∧ s₁' = s₁ := by simpa using heq
  have hgranted := makeWritable_granted henable
  rw [BitVec.le_def] at hdata
  rw [BitVec.lt_def] at hbss
  have hclearable : Clearable s₁' (Between bssStart bssEnd) := by
    constructor
    · intro va hva
      have hpage : pageAlignDown va ∈ loopPages dataStart bssEnd := by
        rw [mem_loopPages hstop, InPageRange, pageAlignDown_toNat]
        rw [Between] at hva
        bv_omega
      obtain ⟨w, p, hw, -⟩ := hgranted.leaves _ hpage
      obtain ⟨hab, hbit⟩ := habove _ w ((mem_loopPages hstop).mp hpage) hw
      rw [← vpn_pageAlignDown va]
      exact hgranted.effective hpage hw hab hbit
    · intro va x hva hphys
      rw [hgranted.isTable]
      rw [hgranted.physOf] at hphys
      exact hapart va x hva hphys
  have hfirst : Between bssStart bssEnd bssStart := by
    rw [Between]
    bv_omega
  obtain ⟨s₀, hbyte, h₀⟩ := (Cleared.refl s₁').clearByte hclearable (fun _ h => h.elim) hfirst
  have hP : ∀ va, False ∨ va = bssStart → Between bssStart bssEnd va := by
    rintro va (h | rfl)
    · exact h.elim
    · exact hfirst
  obtain ⟨i, s₂, hloop, hcleared⟩ := Cleared.clearLoop hclearable hP (by bv_omega) (i := 0)
    (n := (bssEnd - bssStart).toNat / 4096 + 1) (by omega)
    (h₀.congr fun va => ⟨.inl, fun h => h.resolve_right (by simp)⟩)
  have hcr3 : s₂.cr3 = s₁'.cr3 := by rw [hcleared.others]
  refine ⟨s₂, fun fuel hfuel => ⟨i, ?_⟩, fun va hva => ?_, hcleared.kept, fun v => ?_⟩
  · obtain ⟨k, rfl⟩ := Nat.exists_eq_add_of_lt hfuel
    simp only [activateKernelPageTables, hbyte, Option.bind_some]
    rw [show (bssEnd - bssStart).toNat / 4096 + 1 + k + 1 =
      (bssEnd - bssStart).toNat / 4096 + 1 + 1 + k by omega]
    exact Loop.exec_add_of_exit hloop k
  · obtain ⟨tr, htr, -⟩ := hclearable.writable va hva
    have hphys : s₁'.physOf va = some (tr.frame ||| (va &&& 0xfff)) := physOf_eq htr
    rw [MmState.kernelByte, hcleared.physOf hclearable (fun _ h => h), hphys, Option.map_some,
      hcleared.zero va _ hva hphys]
  · rw [hcr3]
    exact hcleared.translate hclearable (fun _ h => h) v

/-- A kernel in one read-only page of 1 GiB. -/
def MmState.readOnlyGigabyte : MmState :=
  { blank with mem := setEntry (setEntry blank.mem 0x1000#64 256 0x2003#64) 0x2000#64 0 0x81#64 }

namespace MmState.readOnlyGigabyte

theorem entry_eq {t : U64} (ht : IsFrame t) (i : BitVec 9) : entry readOnlyGigabyte.mem t i =
    if t = 0x2000#64 ∧ i = 0 then 0x81#64
      else if t = 0x1000#64 ∧ i = 256 then 0x2003#64 else 0#64 := by
  rw [readOnlyGigabyte, entry_setEntry _ (by decide) ht, entry_setEntry _ (by decide) ht,
    entry_blank]

theorem isTable {t : U64} (h : readOnlyGigabyte.IsTable 0x1000#64 t) :
    t = 0x1000#64 ∨ t = 0x2000#64 := by
  have hpdpt : ∀ j, child tableRef readOnlyGigabyte.mem 0x2000#64 j = none := by
    intro j
    rw [child, entry_eq (by decide)]
    by_cases hj : j = 0
    · subst hj
      decide
    · rw [if_neg (fun h => hj h.2), if_neg (fun h => absurd h.1 (by decide)), tableRef_zero]
  obtain ⟨r, p, rfl, -, hw⟩ := h
  cases p with
  | nil => exact .inl (Option.some.inj hw).symm
  | cons i p =>
    right
    obtain ⟨n, hn, hw⟩ := Option.bind_eq_some_iff.mp hw
    rw [child, entry_eq (by decide)] at hn
    by_cases hi : i = 256
    · subst hi
      obtain rfl : 0x2000#64 = n := Option.some.inj hn
      exact (walk_empty hpdpt hw).2
    · rw [if_neg (fun h => absurd h.1 (by decide)), if_neg (fun h => hi h.2), tableRef_zero] at hn
      cases hn

theorem slots : slot4 (vpn 0xffff800000200000#64) = 256 ∧
    slot3 (vpn 0xffff800000200000#64) = 0 := by
  decide

theorem entries : entry readOnlyGigabyte.mem 0x1000#64 256 = 0x2003#64 ∧
    entry readOnlyGigabyte.mem 0x2000#64 0 = 0x81#64 :=
  ⟨entry_eq (by decide) 256, entry_eq (by decide) 0⟩

theorem translated : hwTranslate readOnlyGigabyte.mem 0x1000#64 (vpn 0xffff800000200000#64) =
    some (.through [0x2003#64, 0x81#64] 0x200000#64) := by
  have hnext : pteToPhys 0x2003#64 = 0x2000#64 := by decide
  simp only [hwTranslate, slots, entries, hnext]
  decide

theorem walked : ∃ w, walkVaToLeaf readOnlyGigabyte 0xffff800000200000#64 .unset = (true, w) ∧
    w.leaf = .leaf1G ∧ w.above = [w.pml4e] ∧ readOnlyGigabyte.deref w.pml4e = 0x2003#64 := by
  have hroot : readOnlyGigabyte.cr3 &&& pteAddrMask = 0x1000#64 := by decide
  have hnext : 0x2003#64 &&& pteAddrMask = 0x2000#64 := by decide
  have hpresent : HasFlag 0x2003#64 ptePresent := by decide
  have hleaf : HasFlag 0x81#64 ptePresent ∧ HasFlag 0x81#64 pteHugePage := by decide
  simp only [walkVaToLeaf, walkPdpt, hroot, pml4Index_eq, pdptIndex_eq, slots, MmState.deref_window,
    entries, hnext, hpresent, hleaf, not_true_eq_false, if_false, if_true]
  exact ⟨_, rfl, rfl, rfl, (MmState.deref_window _ _ _).trans entries.1⟩

theorem setup : ∃ s₁, setupKernelPageTables readOnlyGigabyte 0xffff800000200010#64
    0xffff800000200808#64 = some (0x1000#64, s₁) := by
  have hpages : loopPages 0xffff800000200010#64 0xffff800000200808#64 =
      [0xffff800000200000#64] := by
    decide
  obtain ⟨w, hw, hleaf, -⟩ := walked
  simp only [setupKernelPageTables, enableBssWritePermissions, hpages, makeWritable,
    makePageWritableMinimal, hw, hleaf, setWritable_eq, Option.map_some]
  exact ⟨_, rfl⟩

end MmState.readOnlyGigabyte

theorem readOnlyGigabyte_cleared :
    ∃ s₁ s₂, setupKernelPageTables .readOnlyGigabyte 0xffff800000200010#64 0xffff800000200808#64 =
        some (0x1000#64, s₁) ∧
      (∃ i, activateKernelPageTables s₁ 0x1000#64 0xffff800000200800#64 0xffff800000200808#64 4 =
        some (.exit (i, s₂))) ∧
      s₂.kernelByte 0xffff800000200807#64 = some 0 := by
  have hstop : (0xffff800000200808#64).toNat + 0xFFF < 2 ^ 64 := by decide
  have hpage : ∀ va, InPageRange 0xffff800000200010#64 0xffff800000200808#64 va →
      va = 0xffff800000200000#64 := by
    rintro va ⟨hal, hlo, hhi⟩
    apply BitVec.eq_of_toNat_eq
    simp only [BitVec.toNat_ofNat] at *
    omega
  obtain ⟨s₁, hsetup⟩ := MmState.readOnlyGigabyte.setup
  have hdata : 0xffff800000200010#64 ≤ 0xffff800000200800#64 := by decide
  have hbss : 0xffff800000200800#64 < 0xffff800000200808#64 := by decide
  have habove : ∀ va w, InPageRange 0xffff800000200010#64 0xffff800000200808#64 va →
      walkVaToLeaf .readOnlyGigabyte va .unset = (true, w) →
      (∀ q ∈ w.above, HasFlag (MmState.readOnlyGigabyte.deref q) pteWritable) ∧
        ¬ HasFlag (MmState.readOnlyGigabyte.deref w.pml4e) pteHugePage := by
    intro va w hva hw
    obtain rfl := hpage va hva
    obtain ⟨w', hw', -, habove, hentry⟩ := MmState.readOnlyGigabyte.walked
    obtain rfl : w' = w := (Prod.mk.inj (hw'.symm.trans hw)).2
    rw [habove, hentry]
    refine ⟨fun q hq => ?_, by decide⟩
    rw [List.mem_singleton.mp hq, hentry]
    decide
  have hapart : ∀ va x, Between 0xffff800000200800#64 0xffff800000200808#64 va →
      MmState.readOnlyGigabyte.physOf va = some x →
      ¬ MmState.readOnlyGigabyte.IsTable (pteToPhys MmState.readOnlyGigabyte.cr3)
        (pageAlignDown x) := by
    intro va x hva hphys htable
    have hvpn : vpn va = vpn 0xffff800000200000#64 := by
      rw [← vpn_pageAlignDown va]
      congr 1
      apply BitVec.eq_of_toNat_eq
      rw [pageAlignDown_toNat]
      rw [Between] at hva
      bv_omega
    rw [MmState.physOf, Mm.physOf, hvpn] at hphys
    change (hwTranslate MmState.readOnlyGigabyte.mem 0x1000#64 _).map _ = _ at hphys
    rw [MmState.readOnlyGigabyte.translated, Option.map_some] at hphys
    obtain rfl := Option.some.inj hphys
    rw [show Translation.frame (.through [0x2003#64, 0x81#64] 0x200000#64) = 0x200000#64 from rfl,
      IsFrame.pageAlignDown_or (by decide)] at htable
    exact absurd (MmState.readOnlyGigabyte.isTable htable) (by decide)
  obtain ⟨s₂, hclears, hzero, -⟩ := bss_cleared_at_boot hdata hbss hstop hsetup habove hapart
  refine ⟨s₁, s₂, hsetup, hclears 4 (by decide), hzero _ ?_⟩
  rw [Between]
  decide

end Myria.Mm
