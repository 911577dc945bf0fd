import Myria.Arch.UserMode
import Myria.Lib.X86Decode
import Myria.Mm.ManualWalk
import Myria.Mm.UserProcess
import Myria.Mm.VirtualMemory
import Myria.Mm.Vmm
import Myria.Syscall.UserCall

/-! The way of the first user program: from the memory management that `x86_early_init`
of `minimal_test.c` sets up, through `test_user_mode` of `user_init.c` and
`switch_to_user_process` of `user_as.c`, to the system call that the program makes. There
is one memory, the physical one. The program's bytes are fetched through the page tables
in it, and so are the kernel's descriptor tables and its stack. -/
namespace Myria.Boot

open X86 ByteMem Mm Arch Syscall RadixForest

/-! ## The functions -/

/-- The memory management of `x86_early_init`. -/
def initMemory (s : MmState) : MmState :=
  initKernelPml4Template (vmmInit { s with pmm := pmmInit s.pmm })

/-- `user_rip`, `user_rsp` and `user_rflags` of `switch_to_user_process`. -/
def userRip : U64 := 0x10000
def userRsp : U64 := 0x802000
def userRflags : U64 := 0x202

/-- `enter_user` as far as its `IRETQ`, on the stack that is seen through CR3: physical
memory with the words it pushes, and the processor. -/
def enterUserThrough (s : MmState) (c : Cpu) : MmState × Cpu :=
  let pushed := enterUser { c with mem := viewThrough s.mem s.cr3 } userRip userRsp userRflags
  let mem := storeThrough s.mem s.cr3 (stackBytes (c.reg .rsp) 5) pushed.mem
  ({ s with mem }, { pushed with mem := viewThrough mem s.cr3 })

/-- The texts passed to `serial_puts`, the memory, and the processor at the `IRETQ` of
`enter_user`. Loading the same CR3 again and the invalidations have no effect here. -/
def switchToUserProcess (s : MmState) (c : Cpu) (userPml4Phys : U64) :
    List String × MmState × Cpu :=
  let s := { s with cr3 := userPml4Phys }
  let matched := s.cr3 &&& 0xFFFFFFFFFFFFF000 = userPml4Phys &&& 0xFFFFFFFFFFFFF000
  (["[USER_AS] Switching CR3 to user address space\r\n",
      "[USER_AS] CR3 switched with aggressive TLB flushing\r\n", "[USER_AS] Expected CR3: ",
      if matched then "MATCHES expected PML4!\r\n"
      else "MISMATCH! CR3 not set to our user PML4!\r\n"] ++
    debugManualPageWalk s userPml4Phys 0x10000 ++
    ["[USER_AS] Entering user mode with clean address space\r\n"],
    enterUserThrough s c)

/-- With the registers of `c` where `enter_user` is called. There is no processor in the
answer when no process could be created. The messages of `create_user_process` are left
out as they are there. -/
def testUserMode (s : MmState) (c : Cpu) (payload : List (BitVec 8)) :
    List String × MmState × Option Cpu :=
  let header := "\r\n=== User Mode Test (Isolated Address Space) ===\r\n"
  let (userPml4, s) := createUserProcess s payload
  if userPml4 = 0#64 then ([header, "[USER] ERROR: Failed to create user process\r\n"], s, none)
  else
    let (lines, s, entering) := switchToUserProcess s c userPml4
    ([header, "[USER] User process created with isolated address space\r\n",
        "[USER] Code mapped at 0x10000 (RX, U=1)\r\n",
        "[USER] Stack mapped at 0x800000-0x802000 (RW, NX, U=1)\r\n",
        "[USER] Kernel high-half shared for syscalls\r\n",
        "[USER] About to switch CR3 and enter user mode...\r\n",
        "[USER] No more active page table modification - clean switch!\r\n"] ++ lines,
      s, some entering)

/-- `user_payload.S` -/
def userPayload : List (BitVec 8) :=
  assemble [.movImm .rax 0, .movImm .rdi 99, .syscall, .hlt, .hlt, .hlt]

/-- The byte that user code fetches at `va`, if it may. -/
def fetchUser (m : Mem) (root va : U64) : Option (BitVec 8) :=
  if canonical va then
    match hwTranslate m root (vpn va) with
    | some tr =>
      if tr.user ∧ ¬ tr.noExecute then some (m (tr.frame + (va &&& 0xFFF))) else none
    | none => none
  else none

/-! ## Memory management at boot -/

def OutsidePool (t : U64) : Prop := t < pmmStartAddr ∨ pmmEndAddr ≤ t

section Boot

variable {boot : MmState}

/-- The bootloader's tables are outside the pool. -/
def TablesOutsidePool (boot : MmState) : Prop := ∀ t, BootTable boot t → OutsidePool t

theorem pmmInit_unavailable {p : Pmm} {t : U64} (ht : OutsidePool t) :
    ¬ (pmmInit p).Available t := by
  rintro (hmem | ⟨hlo, hhi⟩)
  · cases hmem
  · change pmmStartAddr ≤ t at hlo
    rcases ht with ht | ht <;> bv_omega

/-- With a page to spare there is a template, with the kernel half copied in. -/
theorem initKernelPml4Template_room (s : MmState) (hc : s.pmm.Consistent)
    (hroot : ¬ s.pmm.Available (s.cr3 &&& pteAddrMask)) {n : ℕ} (hroom : n + 1 ≤ s.pmm.freeCount) :
    ∃ f p' m', TakesPage s.pmm f p' ∧ n ≤ p'.freeCount ∧
      initKernelPml4Template s = { s with mem := m', pmm := p', kernelPml4TemplatePhys := f } ∧
      ∀ t j, IsFrame t → entry m' t j =
        if t = f then (if 256 ≤ j.toNat then entry s.mem (s.cr3 &&& pteAddrMask) j else 0#64)
        else entry s.mem t j := by
  rcases pmmAllocPage_cases hc with ⟨-, hex⟩ | ⟨f, p', heq, htake⟩
  · rw [hc.exhausted_iff] at hex
    omega
  have hcount := pmmAllocPage_freeCount hc heq htake.isPage.ne_zero
  have hne : s.cr3 &&& pteAddrMask ≠ f := fun h => hroot (h ▸ htake.available)
  obtain ⟨m', hcopy, hm'⟩ := copyKernelHalf_zeroed
    { s with pmm := p', kernelPml4TemplatePhys := f } htake.isFrame (pteToPhys_isFrame s.cr3) hne
  refine ⟨f, p', m', htake, by omega, ?_, hm'⟩
  simp only [initKernelPml4Template, allocZeroedPagePhys_eq heq htake.isPage.ne_zero,
    if_neg htake.isPage.ne_zero]
  exact hcopy

/-- Memory management in `s` is ready for processes, and outside the pool memory is as at
boot: there are plenty of pages left, and through the template the kernel half is
translated as through the bootloader's tables. -/
structure Ready (boot s : MmState) : Prop where
  isolated : Isolated s.mem s.kernelPml4TemplatePhys (.empty s)
  template : s.kernelPml4TemplatePhys ≠ 0#64
  room : 13 ≤ s.pmm.freeCount
  base : s.getHhdmBase = boot.getHhdmBase
  high : ∀ v, ¬ LowHalf v → hwTranslate s.mem s.kernelPml4TemplatePhys v =
    hwTranslate boot.mem (boot.cr3 &&& pteAddrMask) v
  taken : ∀ t, OutsidePool t → ¬ s.pmm.Available t
  kept : ∀ t j, IsFrame t → OutsidePool t → entry s.mem t j = entry boot.mem t j
  shared : ∀ t, SharedFrame s.mem s.kernelPml4TemplatePhys t → OutsidePool t → BootTable boot t

theorem initMemory_ready (h : TablesOutsidePool boot) : Ready boot (initMemory boot) := by
  have hpmm := (pmmInit_reachable boot.pmm).consistent
  have htables : ∀ t, BootTable boot t → ¬ (pmmInit boot.pmm).Available t :=
    fun t ht => pmmInit_unavailable (h t ht)
  have hisolated : Isolated (initMemory boot).mem (initMemory boot).kernelPml4TemplatePhys
      (.empty (initMemory boot)) := UserSpaces.start_isolated hpmm htables
  have hshared : ∀ t, SharedFrame (initMemory boot).mem
      (initMemory boot).kernelPml4TemplatePhys t → IsFrame t ∧
        ¬ (initMemory boot).pmm.Available t ∧
          ((pmmInit boot.pmm).Available t ∨ BootTable boot t) :=
    (initKernelPml4Template_spec hpmm htables).2
  have hfree : 13 + 1 ≤ (pmmInit ⟨[], 0, 0, 0, 0⟩).freeCount := by decide
  obtain ⟨f, p', m', htake, hroom, hinit, hm'⟩ := initKernelPml4Template_room
    (vmmInit { boot with pmm := pmmInit boot.pmm }) hpmm
    (htables _ ⟨_, [], rfl, Nat.zero_le 3, rfl⟩) hfree
  have hnew : ∀ t, OutsidePool t → t ≠ f := by
    rintro t ht rfl
    exact pmmInit_unavailable ht htake.available
  have hkept : ∀ t j, IsFrame t → OutsidePool t → entry m' t j = entry boot.mem t j := by
    intro t j hframe ht
    rw [hm' t j hframe, if_neg (hnew t ht)]
    rfl
  refine ⟨hisolated, ?_, ?_, ?_, fun v hv => ?_, fun t ht => ?_, ?_, fun t hs ht =>
    (hshared t hs).2.2.resolve_left (pmmInit_unavailable ht)⟩
  all_goals rw [initMemory, hinit]
  · exact htake.isPage.ne_zero
  · exact hroom
  · rfl
  · have hhigh : 256 ≤ (slot4 v).toNat := Nat.le_of_not_lt hv
    refine hwTranslate_congr ?_ fun p t hp hw j => ?_
    · rw [hm' f _ htake.isFrame, if_pos rfl, if_pos hhigh]
      rfl
    · exact hkept t j (isFrame_of_walk_cons hw)
        (h t ⟨_, slot4 v :: p, rfl, Nat.succ_le_succ hp, hw⟩)
  · exact fun hav => pmmInit_unavailable ht (htake.fewer t hav)
  · exact hkept

end Boot

/-! ## The process -/

/-- What the processor finds below `root` for a process with this payload, when the
kernel half is the one of `kernel`. -/
structure Process (m : Mem) (root : U64) (payload : List (BitVec 8))
    (kernel : BitVec 36 → Option Translation) : Prop where
  code : ∃ f, hwTranslate m root (vpn 0x10000#64) = some (userPage f false true) ∧
    FrameHolds m f (payload.getD · 0)
  stack : ∀ v, v = vpn 0x800000#64 ∨ v = vpn 0x801000#64 →
    ∃ f, hwTranslate m root v = some (userPage f true false)
  high : ∀ v, ¬ LowHalf v → hwTranslate m root v = kernel v

/-- A process created from memory `boot` at boot, below the PML4 in frame `a`. Outside the
pool nothing was written, and the process is not affected by later writes there that spare the
bootloader's tables. -/
structure Created (boot : MmState) (payload : List (BitVec 8)) (a : U64) (m : Mem) : Prop where
  kept : ∀ t, IsFrame t → OutsidePool t → ∀ j, entry m t j = entry boot.mem t j
  process : ∀ F m', ChangedOnlyIn F m m' → (∀ t, F t → OutsidePool t ∧ ¬ BootTable boot t) →
    Process m' a payload (hwTranslate boot.mem (boot.cr3 &&& pteAddrMask))

/-- What `create_user_process` leaves is a process, and later writes outside the pool do not
change it: its tables and its code page come from the pool. -/
theorem Ready.created {boot s s' : MmState} (h : Ready boot s) {a code stack1 stack0 : U64}
    {payload : List (BitVec 8)} {held : U64 → Option (Nat → BitVec 8)}
    {last : U64 → BitVec 36 → Option UserMapping} (L : Loaded s ⟨s', [a], last⟩ held)
    (hframes : ProcessFrames held payload code stack1 stack0)
    (hlast : ∀ v, last a v =
      if v = vpn 0x10000#64 then some ⟨code, false, true⟩
      else if v = vpn 0x800000#64 then some ⟨stack1, true, false⟩
      else if v = vpn 0x801000#64 then some ⟨stack0, true, false⟩
      else none) : Created boot payload a s'.mem := by
  have hlow : ∀ v, v = vpn 0x10000#64 ∨ v = vpn 0x800000#64 ∨ v = vpn 0x801000#64 → LowHalf v := by
    rintro v (rfl | rfl | rfl) <;> decide
  obtain ⟨hav, Oc, Hc⟩ := L.data code _ hframes.code
  obtain ⟨-, O1, -⟩ := L.data stack1 _ hframes.stack1
  obtain ⟨-, O0, -⟩ := L.data stack0 _ hframes.stack0
  refine ⟨fun t hframe ht j => ?_, fun F m' hm hF => ?_⟩
  · rw [← h.kept t j hframe ht]
    exact (L.spares.kept t (UserSpaces.empty_outside hframe (h.taken t ht))).2 j
  have hpool : ∀ t, s.pmm.Available t → ¬ F t := fun t ht hFt => h.taken t (hF t hFt).1 ht
  obtain ⟨hisolated, -⟩ := L.isolated.scribble (fun t ht => hpool t (L.table_available ht))
    (fun t ht hFt => (hF t hFt).2 (h.shared t ht (hF t hFt).1)) hm L.isolated.pmm fun _ hb => hb
  have htranslate := hisolated.translate List.mem_cons_self
  refine ⟨⟨code, ?_, Hc.of_entry_eq (hm.entry_eq Oc.frame (hpool code hav))⟩, fun v hv => ?_,
    fun v hv => ?_⟩
  · rw [htranslate, if_pos (hlow _ (.inl rfl))]
    change (last a _).map _ = _
    rw [hlast, if_pos rfl, Option.map_some, Oc.frame.translation_eq]
  · rw [htranslate, if_pos (hlow v (.inr hv))]
    change ∃ f, (last a v).map _ = _
    rw [hlast v]
    rcases hv with rfl | rfl
    · exact ⟨stack1, congrArg some (O1.frame.translation_eq true false)⟩
    · exact ⟨stack0, congrArg some (O0.frame.translation_eq true false)⟩
  · rw [htranslate, if_neg hv]
    exact h.high v hv

theorem Created.process_self {boot : MmState} {payload : List (BitVec 8)} {a : U64} {m : Mem}
    (C : Created boot payload a m) :
    Process m a payload (hwTranslate boot.mem (boot.cr3 &&& pteAddrMask)) :=
  C.process (fun _ => False) m (ChangedOnlyIn.refl _ _) fun _ => False.elim

theorem Ready.createUserProcess {boot s : MmState} (h : Ready boot s) {payload : List (BitVec 8)}
    (hne : (createUserProcess s payload).1 ≠ 0#64) :
    ∃ a s', Mm.createUserProcess s payload = (a, s') ∧ a ≠ 0#64 ∧ Created boot payload a s'.mem ∧
      walkSuccess ∈ debugManualPageWalk s' a 0x10000#64 := by
  obtain ⟨a, code, stack1, stack0, s₁, s₂, s₃, s₄, s₅, s₆, s₇, hsteps⟩ :=
    createUserProcess_steps hne
  obtain ⟨held, last, L, hframes, hlast⟩ := hsteps.loaded h.isolated
  have C := h.created L hframes hlast
  refine ⟨a, s₇, hsteps.result, hsteps.created, C, ?_⟩
  have hreports : Reports s₇.hhdmLine (debugManualPageWalk s₇ a 0x10000#64)
      (hwTranslate s₇.mem a (vpn 0x10000#64)) :=
    debugManualPageWalk_reports fun _ _ _ hpre hw hpres =>
      L.isolated.tablesOpen List.mem_cons_self (by decide) hpre hw hpres
  obtain ⟨f, hcode, -⟩ := C.process_self.code
  rw [walkSuccess_mem_iff hreports, hcode]
  exact Option.some_ne_none _

theorem vpn_congr {va va' : U64} (h : va.toNat / 4096 = va'.toNat / 4096) : vpn va = vpn va' := by
  apply BitVec.eq_of_toNat_eq
  rw [vpn, vpn, BitVec.extractLsb'_toNat, BitVec.extractLsb'_toNat, Nat.shiftRight_eq_div_pow,
    Nat.shiftRight_eq_div_pow]
  exact congrArg (· % 2 ^ 36) h

section Fetch

variable {m : Mem} {root : U64} {payload : List (BitVec 8)}
  {kernel : BitVec 36 → Option Translation}

/-- User code fetches the payload, which starts at `0x10000`. -/
theorem Process.fetch (h : Process m root payload kernel) {i : ℕ} (hi : i < 4096) :
    fetchUser m root (userRip + BitVec.ofNat 64 i) = some (payload.getD i 0) := by
  obtain ⟨f, hcode, hbytes⟩ := h.code
  have hi' : (BitVec.ofNat 64 i).toNat = i := by
    rw [BitVec.toNat_ofNat]
    omega
  have haddr : (userRip + BitVec.ofNat 64 i).toNat = 0x10000 + i := by
    rw [BitVec.toNat_add, hi']
    change (0x10000 + i) % 2 ^ 64 = _
    omega
  have hcanonical : canonical (userRip + BitVec.ofNat 64 i) := by
    left
    apply BitVec.eq_of_toNat_eq
    rw [BitVec.extractLsb'_toNat, haddr, Nat.shiftRight_eq_div_pow]
    change (0x10000 + i) / 2 ^ 47 % 2 ^ 17 = 0
    omega
  have hvpn : vpn (userRip + BitVec.ofNat 64 i) = vpn 0x10000#64 := by
    apply vpn_congr
    rw [haddr]
    change (0x10000 + i) / 4096 = 0x10
    omega
  have hoffset : (userRip + BitVec.ofNat 64 i) &&& 0xFFF = BitVec.ofNat 64 i := by
    apply BitVec.eq_of_toNat_eq
    rw [pageOffset_toNat, haddr, hi']
    omega
  have hbyte := hbytes (BitVec.ofNat 64 i) (by rw [hi']; exact hi)
  rw [hi'] at hbyte
  simp only [fetchUser, if_pos hcanonical, hvpn, hcode, hoffset, hbyte]
  rfl

/-- A program at the start of the payload can be executed. -/
theorem Process.codeAt {code tail : List (BitVec 8)} (h : Process m root (code ++ tail) kernel)
    (hfits : code.length ≤ 4096) : CodeAt (fetchUser m root) userRip code := by
  refine codeAt_of_getD fun i hi => ?_
  rw [h.fetch (by omega), List.getD_append _ _ _ _ hi]

end Fetch

/-! ## From boot to the system call -/

/-- The words that `syscall_entry` pushes for a program that has not moved its stack
pointer are in the page below it. -/
theorem stackWrites_in_page (simg : SyscallImage) {u : Cpu} (hrsp : u.reg .rsp = userRsp) {x : U64}
    (hx : x ∈ stackWrites (onKernelStack simg u) (callDispatch simg)) :
    vpn x = vpn 0x801000#64 := by
  rw [stackWrites_callDispatch, onKernelStack_rsp, hrsp] at hx
  obtain ⟨d, hd, rfl⟩ := List.mem_map.mp hx
  simp only [List.mem_cons, List.not_mem_nil, or_false] at hd
  apply vpn_congr
  change (0x802000#64 - d).toNat / 4096 = 0x801
  bv_omega

/-- The stub passes on what the program has in its registers. -/
theorem dispatchEntry_served (simg : SyscallImage) (u : Cpu) (kernel : KernelState) :
    (syscallDispatch (dispatchEntry simg u).mem kernel ((dispatchEntry simg u).reg .rdi)
        (dispatchArgs (dispatchEntry simg u))).result =
      (syscallDispatch u.mem kernel (u.reg .rax) (passedArgs u)).result := by
  obtain ⟨hnum, hargs⟩ := dispatchEntry_args simg u
  rw [hnum, hargs, (dispatch_mem_irrelevant _ u.mem kernel _ _).1]
  exact congrArg Reply.result (dispatch_args_irrelevant u.mem kernel _ rfl rfl rfl)

/-- A process that was created is entered, with the report of the walk among the lines. -/
theorem testUserMode_entered {s s' : MmState} {a : U64} {payload : List (BitVec 8)}
    (hcreate : createUserProcess s payload = (a, s')) (ha : a ≠ 0#64) (c : Cpu) :
    ∃ lines, testUserMode s c payload =
        (lines, (enterUserThrough { s' with cr3 := a } c).1,
          some (enterUserThrough { s' with cr3 := a } c).2) ∧
      debugManualPageWalk s' a 0x10000#64 ⊆ lines := by
  simp only [testUserMode, hcreate, if_neg ha, switchToUserProcess]
  refine ⟨_, rfl, fun l hl => ?_⟩
  exact List.mem_append_right _ (List.mem_append_left _ (List.mem_append_right _ hl))

/-- The page of `va` is in the kernel half, and in a frame outside the pool. -/
structure KernelPage (boot : MmState) (va : U64) (tr : Translation) : Prop where
  high : ¬ LowHalf (vpn va)
  maps : hwTranslate boot.mem (boot.cr3 &&& pteAddrMask) (vpn va) = some tr
  outside : OutsidePool tr.frame

/-- The kernel at boot, with `sp` the stack pointer where it calls `enter_user`. Its tables and
the words below `sp` are mapped outside the pool, each byte once, and the stack is not in a page
table. No page of the pool is at address zero in the direct map. -/
structure KernelLoaded (boot : MmState) (k : KernelTables) (img : FaultImage) (tss : TssEntry)
    (sp : U64) : Prop where
  outside : TablesOutsidePool boot
  shown : ∀ f, IsPage f → f + boot.getHhdmBase ≠ 0#64
  tables : TablesIn k img tss (viewThrough boot.mem (boot.cr3 &&& pteAddrMask))
  mapped : ∀ x ∈ tableArea k, ∃ tr, KernelPage boot x tr
  stack : ∀ x ∈ stackArea sp 5, ∃ tr, KernelPage boot x tr ∧ tr.writable ∧ ¬ BootTable boot tr.frame
  apart : ∀ x ∈ tableArea k, x ∉ stackArea sp 5
  once : Set.InjOn (physOf boot.mem (boot.cr3 &&& pteAddrMask)) (tableArea k ∪ stackArea sp 5)

section Entered

variable {boot : MmState} {k : KernelTables} {img : FaultImage} {tss : TssEntry} {sp a : U64}
  {payload : List (BitVec 8)} {m : Mem}

/-- A page of the kernel is where it was at boot. -/
theorem KernelPage.physOf_eq {x : U64} {tr : Translation} (h : KernelPage boot x tr)
    (P : Process m a payload (hwTranslate boot.mem (boot.cr3 &&& pteAddrMask))) :
    physOf m a x = physOf boot.mem (boot.cr3 &&& pteAddrMask) x := by
  rw [physOf, physOf, P.high _ h.high]

/-- What `enter_user` pushes in the address space of a new process goes to the kernel's stack:
the process and the kernel's tables are as before. -/
theorem Created.pushed (C : Created boot payload a m) (K : KernelLoaded boot k img tss sp)
    (view : Mem) :
    Process (storeThrough m a (stackBytes sp 5) view) a payload
        (hwTranslate boot.mem (boot.cr3 &&& pteAddrMask)) ∧
      (∀ x ∈ tableArea k, viewThrough (storeThrough m a (stackBytes sp 5) view) a x =
        viewThrough boot.mem (boot.cr3 &&& pteAddrMask) x) ∧
      ∀ x ∈ stackArea sp 5, viewThrough (storeThrough m a (stackBytes sp 5) view) a x = view x := by
  have P₀ := C.process_self
  have P := C.process _ _ (changedOnlyIn_storeThrough m a (stackBytes sp 5) view) (by
    rintro t ⟨x, hx, tr, htr, rfl⟩
    obtain ⟨tr', hpage, -, hno⟩ := K.stack x (mem_stackBytes.mp hx)
    rw [P₀.high _ hpage.high, hpage.maps] at htr
    cases htr
    exact ⟨hpage.outside, hno⟩)
  have hstack : ∀ x ∈ stackBytes sp 5,
      physOf m a x = physOf boot.mem (boot.cr3 &&& pteAddrMask) x := by
    intro x hx
    obtain ⟨tr, hpage, -⟩ := K.stack x (mem_stackBytes.mp hx)
    exact hpage.physOf_eq P₀
  refine ⟨P, fun x hx => ?_, fun x hx => ?_⟩
  · obtain ⟨tr, hpage⟩ := K.mapped x hx
    have hphys := Mm.physOf_eq hpage.maps
    rw [viewThrough_eq ((hpage.physOf_eq P).trans hphys), viewThrough_eq hphys, storeThrough_of_ne]
    · have hframe := isFrame_of_hwTranslate hpage.maps
      rw [hframe.or_offset]
      exact byte_eq_of_entry (C.kept _ hframe hpage.outside) (pageOffset_lt x)
    · intro y hy heq
      rw [hstack y hy, ← hphys] at heq
      have hsame := K.once (.inr (mem_stackBytes.mp hy)) (.inl hx) heq
      exact K.apart x hx (hsame ▸ mem_stackBytes.mp hy)
  · obtain ⟨tr, hpage, -⟩ := K.stack x hx
    have hphys := Mm.physOf_eq hpage.maps
    rw [viewThrough_eq ((hpage.physOf_eq P).trans hphys)]
    refine storeThrough_of_mem (mem_stackBytes.mpr hx) ((hpage.physOf_eq P₀).trans hphys)
      fun y hy heq => ?_
    rw [hstack y hy, ← hphys] at heq
    exact K.once (.inr (mem_stackBytes.mp hy)) (.inr hx) heq

/-- The frame of `enter_user` is where the stack pointer then is, and accepted. -/
theorem Created.entered {s : MmState} {c : Cpu} (C : Created boot payload s.cr3 s.mem)
    (K : KernelLoaded boot k img tss (c.reg .rsp)) :
    ∃ user, iretqProtected (bootRegs k) (enterUserThrough s c).2 = some user ∧
      user.rip = userRip ∧ user.cs = 0x1B ∧ user.reg .rsp = userRsp ∧
      user.msr = writeMsr c.msr 0x1D9 0 ∧
      user.mem = viewThrough (enterUserThrough s c).1.mem s.cr3 := by
  have htop :=
    enterUser_stackTop { c with mem := viewThrough s.mem s.cr3 } userRip userRsp userRflags
  have hrsp : (enterUserThrough s c).2.reg .rsp = c.reg .rsp - 40 :=
    enterUser_rsp { c with mem := viewThrough s.mem s.cr3 } userRip userRsp userRflags
  obtain ⟨-, htables, hstack⟩ := C.pushed K
    (enterUser { c with mem := viewThrough s.mem s.cr3 } userRip userRsp userRflags).mem
  have hframe : (enterUserThrough s c).2.StackTop
      (frameWords (enteredUser { c with mem := viewThrough s.mem s.cr3 } userRip userRsp
        userRflags)) := by
    refine WordsAt.congr htop (by simp [frameWords]) fun x hx => hstack x ?_
    change (x - (enterUserThrough s c).2.reg .rsp).toNat < 40 at hx
    rw [hrsp] at hx
    exact hx
  have hentered := (K.tables.congr htables).iretq_accepted (d := (enterUserThrough s c).2) hframe
    rfl rfl (show canonical userRip by decide)
  obtain ⟨hrip, hcs, -, hsp, -⟩ := iretqLoaded_frame hframe
  exact ⟨_, hentered, hrip, hcs, hsp, iretqLoaded_msr _, iretqLoaded_mem _⟩

end Entered

section Program

variable {boot : MmState} {k : KernelTables} {img : FaultImage} {tss : TssEntry} {c : Cpu}
  (K : KernelLoaded boot k img tss (c.reg .rsp)) {simg : SyscallImage} {msr : U32 → U64}
  (hmsr : c.msr = setupSyscallMsrs simg msr) {imms : List (Reg × U32)} (tail : List (BitVec 8))
  (hfits : (assemble (callProgram imms)).length ≤ 4096)

include K hmsr hfits

/-- A program that loads registers and makes a system call gets as far as that call. -/
theorem testUserMode_calls : ∃ lines mm entering user,
    testUserMode (initMemory boot) c (assemble (callProgram imms) ++ tail) =
      (lines, mm, some entering) ∧ walkSuccess ∈ lines ∧
    Process mm.mem mm.cr3 (assemble (callProgram imms) ++ tail)
      (hwTranslate boot.mem (boot.cr3 &&& pteAddrMask)) ∧
    iretqProtected (bootRegs k) entering = some user ∧ user.cs = 0x1B ∧ user.reg .rsp = userRsp ∧
    user.mem = viewThrough mm.mem mm.cr3 ∧ user.msr msrLstar = simg.syscallEntry ∧
    ∀ fuel, imms.length < fuel → runToSyscall (fetchUser mm.mem mm.cr3) fuel user =
      some { user.loadImms imms with
        rip := user.rip + BitVec.ofNat 64 (assemble (callProgram imms)).length } := by
  have R := initMemory_ready K.outside
  have hshown := K.shown
  rw [← R.base] at hshown
  obtain ⟨a, mm, hcreate, ha, C, hwalk⟩ := R.createUserProcess
    (createUserProcess_room R.isolated R.room R.template hshown
      (assemble (callProgram imms) ++ tail))
  obtain ⟨lines, htest, hlines⟩ := testUserMode_entered hcreate ha c
  obtain ⟨user, hentered, hrip, hcs, hrsp, huserMsr, hmem⟩ :=
    Created.entered (s := { mm with cr3 := a }) C K
  have hprocess := (C.pushed K
    (enterUser { c with mem := viewThrough mm.mem a } userRip userRsp userRflags).mem).1
  refine ⟨lines, _, _, user, htest, hlines hwalk, hprocess, hentered, hcs, hrsp, hmem, ?_,
    fun fuel hfuel => runToSyscall_callProgram ?_ hfuel⟩
  · rw [huserMsr, hmsr]
    rfl
  · rw [hrip]
    exact hprocess.codeAt hfits

end Program

theorem vpn_high {va : U64} (h : kernelVmaBase ≤ va) : ¬ LowHalf (vpn va) := by
  have hva : 0xffffffff80000000 ≤ va.toNat := h
  rw [lowHalf_vpn, BitVec.getLsbD, Nat.testBit_eq_decide_div_mod_eq, decide_eq_false_iff_not]
  omega

/-! ## A kernel in memory -/

theorem kernelVmaBase_toNat : kernelVmaBase.toNat = 0xffffffff80000000 := rfl

/-- The kernel of `bootCpu` in the gigabyte above the pool. -/
def imageMem : Mem := fun pa =>
  if pmmEndAddr.toNat ≤ pa.toNat then bootMem (pa - pmmEndAddr + kernelVmaBase) else 0

/-- The same with a PML4 and a PDPT that map it by one large page. -/
def kernelMem : Mem :=
  setEntry (setEntry imageMem 0x1000#64 511 0x2003#64) 0x2000#64 510 0x40000083#64

theorem entry_kernelMem {t : U64} (ht : IsFrame t) (hlow : t.toNat < pmmEndAddr.toNat)
    (j : BitVec 9) :
    entry kernelMem t j = if t = 0x2000#64 ∧ j = 510 then 0x40000083#64 else
      if t = 0x1000#64 ∧ j = 511 then 0x2003#64 else 0#64 := by
  have h1 : IsFrame 0x1000#64 := by decide
  have h2 : IsFrame 0x2000#64 := by decide
  have hzero : entry imageMem t j = entry MmState.blank.mem t j := by
    obtain ⟨hal, -⟩ := (isFrame_iff t).mp ht
    refine entry_congr (fun k hk => if_neg ?_) j
    rw [pmmEndAddr_toNat] at hlow ⊢
    rw [BitVec.toNat_add]
    omega
  rw [kernelMem, entry_setEntry _ h2 ht, entry_setEntry _ h1 ht, hzero, MmState.entry_blank]

/-- One entry refers to a table. -/
theorem child_kernelMem {t n : U64} {i : BitVec 9} (ht : IsFrame t)
    (hlow : t.toNat < pmmEndAddr.toNat) (h : child tableRef kernelMem t i = some n) :
    t = 0x1000#64 ∧ n = 0x2000#64 := by
  rw [child, entry_kernelMem ht hlow] at h
  split at h
  · rw [tableRef, if_neg (by decide)] at h
    cases h
  split at h
  · rename_i hroot
    rw [tableRef, if_pos (by decide)] at h
    exact ⟨hroot.1, Option.some.inj h.symm⟩
  · rw [tableRef_zero] at h
    cases h

theorem bootTable_kernelMem {t : U64} (h : BootTable (.booted kernelMem) t) :
    t = 0x1000#64 ∨ t = 0x2000#64 := by
  obtain ⟨r, p, rfl, -, hw⟩ := h
  match p with
  | [] => exact .inl (Option.some.inj hw.symm)
  | i :: p =>
    obtain ⟨n, hn, hw⟩ := Option.bind_eq_some_iff.mp hw
    obtain ⟨-, rfl⟩ := child_kernelMem (show IsFrame 0x1000#64 by decide) (by decide) hn
    match p with
    | [] => exact .inr (Option.some.inj hw.symm)
    | j :: p =>
      obtain ⟨n, hn, -⟩ := Option.bind_eq_some_iff.mp hw
      exact absurd (child_kernelMem (by decide) (by decide) hn).1 (by decide)

/-- The addresses that the large page maps. -/
def InImage (x : U64) : Prop := 0xffffffff80000000 ≤ x.toNat ∧ x.toNat < 0xffffffffc0000000

theorem hwTranslate_kernelMem {x : U64} (h : InImage x) :
    hwTranslate kernelMem 0x1000#64 (vpn x) =
      some (.through [0x2003#64, 0x40000083#64] (largeFrame 0x40000083#64 (vpn x) 18)) := by
  obtain ⟨hlo, hhi⟩ := h
  have h4 : slot4 (vpn x) = 511 := by
    apply BitVec.eq_of_toNat_eq
    rw [slot4, vpn, BitField.extractLsb'_toNat_eq, BitField.extractLsb'_toNat_eq]
    change _ = 511
    omega
  have h3 : slot3 (vpn x) = 510 := by
    apply BitVec.eq_of_toNat_eq
    rw [slot3, vpn, BitField.extractLsb'_toNat_eq, BitField.extractLsb'_toNat_eq]
    change _ = 510
    omega
  have he4 : entry kernelMem 0x1000#64 (slot4 (vpn x)) = 0x2003#64 := by
    rw [entry_kernelMem (by decide) (by decide), h4]
    rfl
  have he3 : entry kernelMem (pteToPhys 0x2003#64) (slot3 (vpn x)) = 0x40000083#64 := by
    rw [entry_kernelMem (by decide) (by decide), h3]
    rfl
  simp only [hwTranslate, he4, he3]
  rw [if_neg (by decide), if_neg (by decide), if_pos (by decide)]

theorem largeFrame_image {x : U64} (h : InImage x) :
    (largeFrame 0x40000083#64 (vpn x) 18).toNat =
      x.toNat - x.toNat % 4096 - 0xffffffff80000000 + pmmEndAddr.toNat := by
  obtain ⟨hlo, hhi⟩ := h
  rw [largeFrame_toNat _ _ (by decide),
    show (pteToPhys 0x40000083#64).toNat = 0x40000000 by decide, vpn,
    BitField.extractLsb'_toNat_eq, pmmEndAddr_toNat]
  omega

theorem physOf_kernelMem {x : U64} (h : InImage x) :
    physOf kernelMem 0x1000#64 x = some (x - kernelVmaBase + pmmEndAddr) := by
  have hframe := largeFrame_image h
  rw [Mm.physOf_eq (hwTranslate_kernelMem h)]
  refine congrArg some (BitVec.eq_of_toNat_eq ?_)
  rw [(isFrame_of_hwTranslate (hwTranslate_kernelMem h)).or_offset]
  obtain ⟨hlo, hhi⟩ := h
  rw [Translation.through, BitVec.toNat_add, hframe, pageOffset_toNat, BitVec.toNat_add,
    BitVec.toNat_sub, pmmEndAddr_toNat, kernelVmaBase_toNat]
  omega

/-- The page tables are below the image. -/
theorem kernelMem_above {pa : U64} (h : pmmEndAddr.toNat ≤ pa.toNat) :
    kernelMem pa = bootMem (pa - pmmEndAddr + kernelVmaBase) := by
  have hchanged : ChangedOnlyIn (fun t => t = 0x1000#64 ∨ t = 0x2000#64) imageMem kernelMem :=
    ((changedOnlyIn_setEntry imageMem (by decide) _ _).mono fun _ => .inl).trans
      ((changedOnlyIn_setEntry _ (by decide) _ _).mono fun _ => .inr)
  have hsame : kernelMem pa = imageMem pa := by
    by_contra hne
    have hdown := pageAlignDown_toNat pa
    rw [pmmEndAddr_toNat] at h
    rcases hchanged pa hne with heq | heq
    · rw [heq] at hdown
      change 0x1000 = _ at hdown
      omega
    · rw [heq] at hdown
      change 0x2000 = _ at hdown
      omega
  rw [hsame, imageMem, if_pos h]

theorem viewThrough_kernelMem {x : U64} (h : InImage x) :
    viewThrough kernelMem 0x1000#64 x = bootMem x := by
  rw [viewThrough_eq (physOf_kernelMem h), kernelMem_above, add_sub_cancel_right, sub_add_cancel]
  obtain ⟨hlo, hhi⟩ := h
  rw [BitVec.toNat_add, BitVec.toNat_sub, pmmEndAddr_toNat, kernelVmaBase_toNat]
  omega

theorem pages_shown_booted (m : Mem) : ∀ f, IsPage f →
    f + (MmState.booted m).getHhdmBase ≠ 0#64 := by
  rintro f ⟨-, -, hhi⟩
  rw [pmmEndAddr] at hhi
  change f + 0xffff800000000000#64 ≠ 0#64
  bv_omega

theorem kernelPage_kernelMem {x : U64} (h : InImage x) :
    KernelPage (.booted kernelMem) x
      (.through [0x2003#64, 0x40000083#64] (largeFrame 0x40000083#64 (vpn x) 18)) where
  high := vpn_high h.1
  maps := hwTranslate_kernelMem h
  outside := by
    right
    rw [Translation.through, BitVec.le_def, largeFrame_image h]
    exact Nat.le_add_left _ _

theorem kernelLoaded_sample :
    KernelLoaded (.booted kernelMem) .sample .sample (tssInit .sample) (bootCpu.reg .rsp) := by
  have himage : ∀ x ∈ tableArea .sample ∪ stackArea (bootCpu.reg .rsp) 5, InImage x := by
    intro x hx
    change _ ∨ (x - (0xffffffff80420000#64 - 40#64)).toNat < 40 at hx
    simp only [tableArea, KernelTables.sample, Set.mem_ofPred_eq] at hx
    constructor <;> bv_omega
  exact
    { outside := by
        intro t ht
        left
        rcases bootTable_kernelMem ht with rfl | rfl <;> decide
      shown := pages_shown_booted kernelMem
      tables := tablesIn_bootMem.congr fun x hx => viewThrough_kernelMem (himage x (.inl hx))
      mapped := fun x hx => ⟨_, kernelPage_kernelMem (himage x (.inl hx))⟩
      stack := by
        intro x hx
        have hframe := largeFrame_image (himage x (.inr hx))
        refine ⟨_, kernelPage_kernelMem (himage x (.inr hx)), by rfl, fun htable => ?_⟩
        -- the image is above the pool, and its two tables are below
        have htable' : (largeFrame 0x40000083#64 (vpn x) 18).toNat ≤ 0x2000 := by
          rcases bootTable_kernelMem htable with heq | heq
          · exact (congrArg BitVec.toNat heq).le.trans (by decide)
          · exact (congrArg BitVec.toNat heq).le
        rw [hframe, pmmEndAddr_toNat] at htable'
        omega
      apart := fun x hx => tableArea_stackArea hx (by decide) (by decide)
      once := by
        intro x hx y hy heq
        change physOf kernelMem 0x1000#64 x = physOf kernelMem 0x1000#64 y at heq
        rw [physOf_kernelMem (himage x hx), physOf_kernelMem (himage y hy)] at heq
        exact sub_left_inj.mp (add_right_cancel (Option.some.inj heq)) }

end Myria.Boot
