import Myria.Mm.UserIsolation

/-! `debug_manual_page_walk` of `user_as.c`, which `switch_to_user_process` runs before
it enters user mode: it reads the four entries on the way to a page and prints what it
finds. It takes every present entry for a table, large pages included, so its word
counts where there are none: in the low half of the address spaces of `user_as.c`. -/
namespace Myria.Mm

open ByteMem RadixForest

/-- The line that `get_hhdm_base` prints, each time that `phys_to_virt` calls it. -/
def MmState.hhdmLine (s : MmState) : String :=
  if s.hhdmOffset.isSome then "[PAGING] HHDM response found\r\n"
  else "[PAGING] No HHDM response - using fallback\r\n"

/-- One level of the walk: print what entry `index` of a table says and go on with it,
or stop. -/
def manualLevel (s : MmState) (label : String) (tablePhys index : U64) (rest : U64 → List String) :
    List String :=
  let e := s.load s.getHhdmBase (s.physToVirt tablePhys) index
  s.hhdmLine :: label :: "] = " ::
    if HasFlag e ptePresent then
      "PRESENT " :: (if HasFlag e pteUser then "USER " else "KERNEL ") :: rest e
    else ["NOT_PRESENT - WALK STOPS HERE!\r\n"]

def walkHeader : String := "[USER_AS] MANUAL PAGE WALK for user code VA\r\n"

def walkSuccess : String := "\r\n[USER_AS] Manual walk successful - page should be accessible!\r\n"

/-- The texts passed to `serial_puts`, in order, by the function itself and by
`get_hhdm_base`. -/
def debugManualPageWalk (s : MmState) (pml4Phys va : U64) : List String :=
  walkHeader :: manualLevel s "[USER_AS] PML4[" pml4Phys (pml4Index va) fun e4 =>
    "\r\n" :: manualLevel s "[USER_AS] PDPT[" (e4 &&& pteAddrMask) (pdptIndex va) fun e3 =>
      "\r\n" :: manualLevel s "[USER_AS] PD[" (e3 &&& pteAddrMask) (pdIndex va) fun e2 =>
        "\r\n" :: manualLevel s "[USER_AS] PT[" (e2 &&& pteAddrMask) (ptIndex va) fun e1 =>
          [if HasFlag e1 pteNoExecute then "NX " else "EXEC ", walkSuccess]

/-! ## What it should print -/

def levelLabels : List String :=
  ["[USER_AS] PML4[", "[USER_AS] PDPT[", "[USER_AS] PD[", "[USER_AS] PT["]

section Report

variable (hhdm : String)

/-- A table that is there and open to user mode, after the line `hhdm` of `get_hhdm_base`. -/
def openLevel (label : String) : List String :=
  [hhdm, label, "] = ", "PRESENT ", "USER ", "\r\n"]

/-- The report on a page with translation `tr`. -/
def accessibleReport (tr : Translation) : List String :=
  walkHeader :: ((levelLabels.take 3).flatMap (openLevel hhdm) ++
    [hhdm, "[USER_AS] PT[", "] = ", "PRESENT ", if tr.user then "USER " else "KERNEL ",
      if tr.noExecute then "NX " else "EXEC ", walkSuccess])

/-- The report on a walk that ends below `n` tables. -/
def stoppedReport (n : ℕ) : List String :=
  walkHeader :: ((levelLabels.take n).flatMap (openLevel hhdm) ++
    [hhdm, levelLabels.getD n "", "] = ", "NOT_PRESENT - WALK STOPS HERE!\r\n"])

/-- The report fits the translation of the page. -/
def Reports (lines : List String) : Option Translation → Prop
  | some tr => lines = accessibleReport hhdm tr
  | none => ∃ n < 4, lines = stoppedReport hhdm n

end Report

section Level

variable (s : MmState) (label : String) {t : U64} {i : BitVec 9} (rest : U64 → List String)

theorem manualLevel_absent (h : ¬ HasFlag (entry s.mem t i) ptePresent) :
    manualLevel s label t (i.setWidth 64) rest =
      [s.hhdmLine, label, "] = ", "NOT_PRESENT - WALK STOPS HERE!\r\n"] := by
  simp only [manualLevel, MmState.physToVirt, MmState.load_window]
  rw [if_neg h]

theorem manualLevel_present (h : HasFlag (entry s.mem t i) ptePresent) :
    manualLevel s label t (i.setWidth 64) rest =
      [s.hhdmLine, label, "] = ", "PRESENT ",
        if HasFlag (entry s.mem t i) pteUser then "USER " else "KERNEL "] ++
          rest (entry s.mem t i) := by
  simp only [manualLevel, MmState.physToVirt, MmState.load_window]
  rw [if_pos h]
  rfl

theorem manualLevel_open (h : UserEntry (entry s.mem t i)) (next : U64 → List String) :
    (manualLevel s label t (i.setWidth 64) fun e => "\r\n" :: next e) =
      openLevel s.hhdmLine label ++ next (entry s.mem t i) := by
  rw [manualLevel_present s label _ h.present, if_pos h.user]
  rfl

end Level

/-- Where the tables above the page are open to user mode and there is no large page,
the walk finds what the processor finds. -/
theorem debugManualPageWalk_reports {s : MmState} {r va : U64}
    (h : ∀ p t i, p ++ [i] <+: tablePath (vpn va) → walk (child followPresent s.mem) r p = some t →
      HasFlag (entry s.mem t i) ptePresent → UserEntry (entry s.mem t i)) :
    Reports s.hhdmLine (debugManualPageWalk s r va) (hwTranslate s.mem r (vpn va)) := by
  rw [debugManualPageWalk, hwTranslate_of_userEntry h]
  simp only [pml4Index_eq, pdptIndex_eq, pdIndex_eq, ptIndex_eq, leaf, tablePath, walk]
  generalize vpn va = v at h ⊢
  -- level by level: an absent entry ends the walk, a present one is an open table
  by_cases h4 : HasFlag (entry s.mem r (slot4 v)) ptePresent
  swap
  · rw [manualLevel_absent s _ _ h4]
    simp only [child, presentRef, if_neg h4]
    exact ⟨0, by decide, rfl⟩
  have u4 := h [] r (slot4 v) ⟨[slot3 v, slot2 v], rfl⟩ rfl h4
  have hc4 : child followPresent s.mem r (slot4 v) = some (pteToPhys (entry s.mem r (slot4 v))) :=
    if_pos h4
  rw [manualLevel_open s _ u4, hc4, Option.bind_some, ← pteToPhys]
  generalize pteToPhys (entry s.mem r (slot4 v)) = t3 at hc4 ⊢
  by_cases h3 : HasFlag (entry s.mem t3 (slot3 v)) ptePresent
  swap
  · rw [manualLevel_absent s _ _ h3]
    simp only [child, presentRef, if_neg h3]
    exact ⟨1, by decide, rfl⟩
  have u3 := h [slot4 v] t3 (slot3 v) ⟨[slot2 v], rfl⟩ (by rw [walk, hc4]; rfl) h3
  have hc3 : child followPresent s.mem t3 (slot3 v) = some (pteToPhys (entry s.mem t3 (slot3 v))) :=
    if_pos h3
  rw [manualLevel_open s _ u3, hc3, Option.bind_some, ← pteToPhys]
  generalize pteToPhys (entry s.mem t3 (slot3 v)) = t2 at hc3 ⊢
  by_cases h2 : HasFlag (entry s.mem t2 (slot2 v)) ptePresent
  swap
  · rw [manualLevel_absent s _ _ h2]
    simp only [child, presentRef, if_neg h2]
    exact ⟨2, by decide, rfl⟩
  have u2 := h [slot4 v, slot3 v] t2 (slot2 v) ⟨[], rfl⟩
    (by rw [walk, hc4, Option.bind_some, walk, hc3]; rfl) h2
  have hc2 : child followPresent s.mem t2 (slot2 v) = some (pteToPhys (entry s.mem t2 (slot2 v))) :=
    if_pos h2
  rw [manualLevel_open s _ u2, hc2, Option.bind_some, ← pteToPhys]
  generalize pteToPhys (entry s.mem t2 (slot2 v)) = t1
  by_cases h1 : HasFlag (entry s.mem t1 (slot1 v)) ptePresent
  swap
  · rw [manualLevel_absent s _ _ h1]
    simp only [Option.map_some, Option.bind_some, decodePte, if_neg h1]
    exact ⟨3, by decide, rfl⟩
  rw [manualLevel_present s _ _ h1]
  simp only [Option.map_some, Option.bind_some, decodePte, if_pos h1, Reports, accessibleReport,
    Translation.through, List.all_cons, List.all_nil, List.any_cons, List.any_nil, Bool.and_true,
    Bool.or_false, decide_eq_true_eq]
  rfl

/-- The tables above a low-half page of an address space are open to user mode. -/
theorem Isolated.tablesOpen {m₀ : Mem} {template : U64} {s : UserSpaces}
    (h : Isolated m₀ template s)
    {a : U64} (ha : a ∈ s.created) {v : BitVec 36} (hv : LowHalf v) {p : List (BitVec 9)} {t : U64}
    {i : BitVec 9} (hpre : p ++ [i] <+: tablePath v)
    (hw : walk (child followPresent s.mm.mem) a p = some t)
    (hpres : HasFlag (entry s.mm.mem t i) ptePresent) : UserEntry (entry s.mm.mem t i) := by
  have hlen : p.length ≤ 2 := Nat.le_of_lt_succ (length_lt_of_isPrefix_concat hpre)
  cases p with
  | nil =>
    obtain rfl : i = slot4 v := (List.cons_prefix_cons.mp hpre).1
    exact h.userEntry ha hlen hw (fun _ => hv) hpres
  | cons j p =>
    obtain rfl : j = slot4 v := (List.cons_prefix_cons.mp hpre).1
    have hlow : lowWalk s.mm.mem a (slot4 v :: p) = some t := by
      rwa [lowWalk, if_pos (show (slot4 v).toNat < 256 from hv)]
    exact h.userEntry ha hlen hlow (fun hnil => by cases hnil) hpres

/-- The success line is in no other report. -/
theorem walkSuccess_mem_iff {s : MmState} {lines : List String} {tr : Option Translation}
    (h : Reports s.hhdmLine lines tr) : walkSuccess ∈ lines ↔ tr ≠ none := by
  cases tr with
  | some tr =>
    rw [show lines = _ from h]
    simp [accessibleReport]
  | none =>
    obtain ⟨n, hn, rfl⟩ := h
    have hstopped : ∀ n < 4, walkSuccess ∉ stoppedReport s.hhdmLine n := by
      rw [MmState.hhdmLine]
      split <;> decide
    exact iff_of_false (hstopped n hn) (not_not.mpr rfl)

/-- **The walk tells the truth.** After `init_kernel_pml4_template` and any interleaving
of creations and low-half mappings, for every address space and every low-half address:
the walk calls the page accessible exactly when it was mapped, and then reports four
present entries that are all open to user mode, with the rights of the last mapping;
otherwise it stops at one of the four tables. Either way it agrees with what the
processor finds. -/
theorem manual_walk_truthful {boot : MmState} (hpmm : boot.pmm.Reachable)
    (hboot : ∀ t, BootTable boot t → ¬ boot.pmm.Available t) {ops : List UserAsOp} {s : UserSpaces}
    (hrun : Runs.run userAsStep (UserSpaces.start boot) ops = some s) {a va : U64}
    (ha : a ∈ s.created) (hva : va.getLsbD 47 = false) :
    Reports s.mm.hhdmLine (debugManualPageWalk s.mm a va) (hwTranslate s.mm.mem a (vpn va)) ∧
      (walkSuccess ∈ debugManualPageWalk s.mm a va ↔ ∃ μ, s.last a (vpn va) = some μ) ∧
      ∀ μ, s.last a (vpn va) = some μ →
        debugManualPageWalk s.mm a va = accessibleReport s.mm.hhdmLine μ.translation := by
  have h := Runs.run_invariant
    (P := fun _ s => Isolated (initKernelPml4Template boot).mem
      (initKernelPml4Template boot).kernelPml4TemplatePhys s)
    (UserSpaces.start_isolated hpmm.consistent hboot)
    (fun _ _ _ _ _ h hs => (h.step hs).1) ops s hrun
  have hlow : LowHalf (vpn va) := lowHalf_vpn.mpr hva
  have hreports : Reports s.mm.hhdmLine (debugManualPageWalk s.mm a va)
      (hwTranslate s.mm.mem a (vpn va)) :=
    debugManualPageWalk_reports fun _ _ _ hpre hw hpres => h.tablesOpen ha hlow hpre hw hpres
  refine ⟨hreports, ?_, fun μ hμ => ?_⟩
  · rw [walkSuccess_mem_iff hreports, h.translate ha, if_pos hlow]
    cases s.last a (vpn va) <;> simp
  · rw [h.translate ha, if_pos hlow, hμ] at hreports
    exact hreports

/-- One address space with one page, walked at the address of that page. -/
theorem manual_walk_blank :
    ∃ s, Runs.run userAsStep (.start .blank)
        [.create, .map 0x201000#64 0x10000#64 0x300000#64 false true] = some s ∧
      Reports s.mm.hhdmLine (debugManualPageWalk s.mm 0x201000#64 0x10000#64)
        (hwTranslate s.mm.mem 0x201000#64 (vpn 0x10000#64)) := by
  obtain ⟨m', hnew, -⟩ := userAsCreate_booted MmState.blank.mem
  have hcreate := userAsStep_create (s := .start .blank) hnew (by decide)
  have hlow : (0x10000#64).getLsbD 47 = false := by decide
  have hrun := (Runs.run_cons_of_step hcreate _).trans
    (Runs.run_cons_of_step (userAsStep_map List.mem_cons_self hlow 0x300000#64 false true) [])
  have hpmm : MmState.blank.pmm.Reachable := pmmInit_reachable _
  obtain ⟨s, hs, hmem⟩ : ∃ s, Runs.run userAsStep (.start .blank)
      [.create, .map 0x201000#64 0x10000#64 0x300000#64 false true] = some s ∧
      0x201000#64 ∈ s.created := ⟨_, hrun, List.mem_cons_self⟩
  exact ⟨s, hs, (manual_walk_truthful hpmm (fun _ => bootTable_blank) hs hmem hlow).1⟩

end Myria.Mm
