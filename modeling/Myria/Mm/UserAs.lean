import Myria.Mm.State
import Myria.Mm.Translate

/-! The user address spaces of `user_as.c`. Every PML4 it creates shares the
kernel half with a template and has a low half of its own. Pointers are made by
`phys_to_virt`, and a null pointer is the word `0`. Left out: the serial
messages, the cache flushes, and the read-back of the flags after a mapping,
which only prints. -/
namespace Myria.Mm

open ByteMem RadixForest

def allocZeroedPagePhys (s : MmState) : U64 × MmState :=
  let (pa, pmm) := pmmAllocPage s.pmm
  let s := { s with pmm }
  if pa = 0#64 then (0#64, s)
  else
    let page := s.physToVirt pa
    let base := s.getHhdmBase
    (pa, (List.range 4096).foldl (fun s i => s.store8 base page (BitVec.ofNat 64 i) 0) s)

/-- The loop `for (i = 256; i < 512; i++) dst[i] = src[i]`. -/
def copyKernelHalf (s : MmState) (dst src : U64) : MmState :=
  let base := s.getHhdmBase
  (List.range' 256 256).foldl
    (fun s i => s.store base dst (BitVec.ofNat 64 i) (s.load base src (BitVec.ofNat 64 i))) s

def initKernelPml4Template (s : MmState) : MmState :=
  let currentPml4 := s.physToVirt (s.cr3 &&& pteAddrMask)
  let (phys, s) := allocZeroedPagePhys s
  let s := { s with kernelPml4TemplatePhys := phys }
  if phys = 0#64 then s
  else copyKernelHalf s (s.physToVirt phys) currentPml4

def userAsCreate (s : MmState) : U64 × MmState :=
  if s.kernelPml4TemplatePhys = 0#64 then (0#64, s)
  else
    let (userPml4Phys, s) := allocZeroedPagePhys s
    if userPml4Phys = 0#64 then (0#64, s)
    else
      (userPml4Phys,
        copyKernelHalf s (s.physToVirt userPml4Phys) (s.physToVirt s.kernelPml4TemplatePhys))

def getOrMakeTableInPml4 (s : MmState) (tablePhys index upperFlags : U64) : U64 × MmState :=
  let table := s.physToVirt tablePhys
  let base := s.getHhdmBase
  if ¬ HasFlag (s.load base table index) ptePresent then
    let (newPhys, s) := allocZeroedPagePhys s
    if newPhys = 0#64 then (0#64, s)
    else
      let s := s.store base table index (newPhys ||| ptePresent ||| pteWritable ||| upperFlags)
      (s.physToVirt (s.load base table index &&& pteAddrMask), s)
  else
    let s := s.store base table index (s.load base table index ||| upperFlags)
    (s.physToVirt (s.load base table index &&& pteAddrMask), s)

/-- The flags of a user page. -/
def userPteFlags (writable executable : Bool) : U64 :=
  let flags := ptePresent ||| pteUser
  let flags := if writable then flags ||| pteWritable else flags
  if executable then flags else flags ||| pteNoExecute

def userMap4kInPml4 (s : MmState) (pml4Phys va pa : U64) (writable executable : Bool) :
    Bool × MmState :=
  let base := s.getHhdmBase
  let (pdpt, s) := getOrMakeTableInPml4 s pml4Phys (pml4Index va) pteUser
  if pdpt = 0#64 then (false, s)
  else
    let pdptPhys := s.load base (s.physToVirt pml4Phys) (pml4Index va) &&& pteAddrMask
    let (pd, s) := getOrMakeTableInPml4 s pdptPhys (pdptIndex va) pteUser
    if pd = 0#64 then (false, s)
    else
      let pdPhys := s.load base pdpt (pdptIndex va) &&& pteAddrMask
      let (pt, s) := getOrMakeTableInPml4 s pdPhys (pdIndex va) pteUser
      if pt = 0#64 then (false, s)
      else
        (true, s.store base pt (ptIndex va)
          ((pa &&& pteAddrMask) ||| userPteFlags writable executable))

/-! ## Getting or making a table -/

theorem pteToPhys_or_user (e : U64) : pteToPhys (e ||| pteUser) = pteToPhys e :=
  pteToPhys_or_flags e (by decide)

theorem allocZeroedPagePhys_eq {s : MmState} {f : U64} {p' : Pmm}
    (h : pmmAllocPage s.pmm = (f, p')) (hf : f ≠ 0#64) :
    allocZeroedPagePhys s = (f, { s with mem := zeroed s.mem f 4096, pmm := p' }) := by
  simp only [allocZeroedPagePhys, h, if_neg hf, MmState.physToVirt, MmState.clearPage_eq]

theorem allocZeroedPagePhys_spec {s : MmState} (h : s.pmm.Consistent) :
    AllocatesCleared s (allocZeroedPagePhys s) := by
  rcases pmmAllocPage_cases h with ⟨heq, hex⟩ | ⟨f, p', heq, htake⟩
  · refine .inl ⟨?_, hex⟩
    rw [allocZeroedPagePhys, heq]
    rfl
  · exact .inr ⟨f, p', allocZeroedPagePhys_eq heq htake.isPage.ne_zero, htake⟩

/-- A present entry gets `PTE_USER`. -/
theorem getOrMakeTableInPml4_present {s : MmState} {t : U64} (ht : IsFrame t) {i : BitVec 9}
    (hpres : HasFlag (entry s.mem t i) ptePresent) :
    getOrMakeTableInPml4 s t (i.setWidth 64) pteUser =
      (pteToPhys (entry s.mem t i) + s.getHhdmBase,
        { s with mem := setEntry s.mem t i (entry s.mem t i ||| pteUser) }) := by
  simp only [getOrMakeTableInPml4, MmState.physToVirt, MmState.load_window]
  rw [if_neg (not_not.mpr hpres), MmState.store_window, entry_setEntry _ ht ht,
    if_pos ⟨rfl, rfl⟩, ← pteToPhys, pteToPhys_or_user]
  rfl

/-- An empty one gets a fresh table. -/
theorem getOrMakeTableInPml4_link {s : MmState} {t f : U64} {i : BitVec 9} {p' : Pmm}
    (ht : IsFrame t)
    (hempty : ¬ HasFlag (entry s.mem t i) ptePresent) (halloc : pmmAllocPage s.pmm = (f, p'))
    (hf : IsFrame f) (hne : f ≠ 0#64) :
    getOrMakeTableInPml4 s t (i.setWidth 64) pteUser =
      (f + s.getHhdmBase,
        { s with
          mem := linked s.mem t i f (f ||| ptePresent ||| pteWritable ||| pteUser)
          pmm := p' }) := by
  simp only [getOrMakeTableInPml4, MmState.physToVirt, MmState.load_window, if_pos hempty,
    allocZeroedPagePhys_eq halloc hne, if_neg hne, MmState.store_window]
  rw [← linked, entry_linked _ ht hf ht, if_pos ⟨rfl, rfl⟩, ← pteToPhys, BitVec.or_assoc,
    BitVec.or_assoc, hf.pteToPhys_or (by decide), ← BitVec.or_assoc, ← BitVec.or_assoc]
  rfl

/-- What one level of the walk can do at slot `i` of table `t`: put the flags on a
present entry, fail on an exhausted allocator, or link a fresh table. -/
theorem getOrMakeTableInPml4_cases {s : MmState} (h : s.pmm.Consistent) {t : U64} (ht : IsFrame t)
    (i : BitVec 9) :
    (HasFlag (entry s.mem t i) ptePresent ∧
      getOrMakeTableInPml4 s t (i.setWidth 64) pteUser =
        (pteToPhys (entry s.mem t i) + s.getHhdmBase,
          { s with mem := setEntry s.mem t i (entry s.mem t i ||| pteUser) })) ∨
    (¬ HasFlag (entry s.mem t i) ptePresent ∧ s.pmm.Exhausted ∧
      getOrMakeTableInPml4 s t (i.setWidth 64) pteUser = (0#64, s)) ∨
    (¬ HasFlag (entry s.mem t i) ptePresent ∧ ∃ f p', pmmAllocPage s.pmm = (f, p') ∧
      TakesPage s.pmm f p' ∧
      getOrMakeTableInPml4 s t (i.setWidth 64) pteUser =
        (f + s.getHhdmBase,
          { s with
            mem := linked s.mem t i f (f ||| ptePresent ||| pteWritable ||| pteUser)
            pmm := p' })) := by
  by_cases hpres : HasFlag (entry s.mem t i) ptePresent
  · exact .inl ⟨hpres, getOrMakeTableInPml4_present ht hpres⟩
  rcases pmmAllocPage_cases h with ⟨heq, hex⟩ | ⟨f, p', heq, htake⟩
  · refine .inr (.inl ⟨hpres, hex, ?_⟩)
    simp only [getOrMakeTableInPml4, MmState.physToVirt, MmState.load_window, if_pos hpres,
      allocZeroedPagePhys, heq, if_true]
  · exact .inr (.inr ⟨hpres, f, p', heq, htake,
      getOrMakeTableInPml4_link ht hpres heq htake.isFrame htake.isPage.ne_zero⟩)

/-- A call that gets past all three levels. -/
theorem userMap4kInPml4_of_levels {s s₃ s₂ s₁ : MmState} {a va t₃ t₂ t₁ base : U64}
    (hb : s.getHhdmBase = base)
    (h₃ : getOrMakeTableInPml4 s a ((slot4 (vpn va)).setWidth 64) pteUser = (t₃ + base, s₃))
    (h₂ : getOrMakeTableInPml4 s₃ (pteToPhys (entry s₃.mem a (slot4 (vpn va))))
      ((slot3 (vpn va)).setWidth 64) pteUser = (t₂ + base, s₂))
    (h₁ : getOrMakeTableInPml4 s₂ (pteToPhys (entry s₂.mem t₃ (slot3 (vpn va))))
      ((slot2 (vpn va)).setWidth 64) pteUser = (t₁ + base, s₁))
    (hb₃ : s₃.getHhdmBase = base) (hne₃ : t₃ + base ≠ 0#64) (hne₂ : t₂ + base ≠ 0#64)
    (hne₁ : t₁ + base ≠ 0#64) (pa : U64) (w x : Bool) :
    userMap4kInPml4 s a va pa w x = (true, { s₁ with
      mem := setEntry s₁.mem t₁ (slot1 (vpn va)) ((pa &&& pteAddrMask) ||| userPteFlags w x)
        }) := by
  rw [pteToPhys] at h₂ h₁
  simp only [userMap4kInPml4, pml4Index_eq, pdptIndex_eq, pdIndex_eq, ptIndex_eq,
    MmState.physToVirt, h₃, if_neg hne₃, hb, hb₃, MmState.load_window, h₂, if_neg hne₂, h₁,
    if_neg hne₁, MmState.store_window]

/-- A mapping below an empty PML4 slot, when three pages are left for tables. -/
theorem userMap4kInPml4_fresh {s : MmState} {a va f₃ f₂ f₁ base : U64} {p₃ p₂ p₁ : Pmm}
    (hbase : s.getHhdmBase = base) (ha : IsFrame a)
    (hempty : ¬ HasFlag (entry s.mem a (slot4 (vpn va))) ptePresent)
    (h₃ : pmmAllocPage s.pmm = (f₃, p₃)) (h₂ : pmmAllocPage p₃ = (f₂, p₂))
    (h₁ : pmmAllocPage p₂ = (f₁, p₁)) (hf₃ : IsFrame f₃ ∧ f₃ ≠ 0#64 ∧ a ≠ f₃)
    (hf₂ : IsFrame f₂ ∧ f₂ ≠ 0#64 ∧ f₃ ≠ f₂) (hf₁ : IsFrame f₁ ∧ f₁ ≠ 0#64 ∧ f₂ ≠ f₁)
    (hne : f₃ + base ≠ 0#64 ∧ f₂ + base ≠ 0#64 ∧ f₁ + base ≠ 0#64) (pa : U64) (w x : Bool) :
    userMap4kInPml4 s a va pa w x = (true, { s with
      mem := setEntry (linked (linked (linked s.mem
        a (slot4 (vpn va)) f₃ (f₃ ||| ptePresent ||| pteWritable ||| pteUser))
        f₃ (slot3 (vpn va)) f₂ (f₂ ||| ptePresent ||| pteWritable ||| pteUser))
        f₂ (slot2 (vpn va)) f₁ (f₁ ||| ptePresent ||| pteWritable ||| pteUser))
        f₁ (slot1 (vpn va)) ((pa &&& pteAddrMask) ||| userPteFlags w x)
      pmm := p₁ }) := by
  obtain ⟨hf₃, hnz₃, hd₃⟩ := hf₃
  obtain ⟨hf₂, hnz₂, hd₂⟩ := hf₂
  subst hbase
  have hzero : ∀ {m : Mem} {t f v : U64} {i j : BitVec 9}, IsFrame t → IsFrame f → t ≠ f →
      ¬ HasFlag (entry (linked m t i f v) f j) ptePresent := by
    intro m t f v i j ht hf hne
    rw [entry_linked_fresh m ht hf hne]
    exact not_hasFlag_zero _
  have hrefers : ∀ {m : Mem} {t f : U64} {i : BitVec 9}, IsFrame t → IsFrame f →
      pteToPhys (entry (linked m t i f (f ||| ptePresent ||| pteWritable ||| pteUser)) t i) =
        f := by
    intro m t f i ht hf
    rw [entry_linked m ht hf ht, if_pos ⟨rfl, rfl⟩, BitVec.or_assoc, BitVec.or_assoc,
      hf.pteToPhys_or (by decide)]
  have g₃ := getOrMakeTableInPml4_link ha hempty h₃ hf₃ hnz₃
  have g₂ := getOrMakeTableInPml4_link
    (s := { s with
      mem := linked s.mem a (slot4 (vpn va)) f₃ (f₃ ||| ptePresent ||| pteWritable ||| pteUser)
      pmm := p₃ }) (i := slot3 (vpn va)) hf₃ (hzero ha hf₃ hd₃) h₂ hf₂ hnz₂
  have g₁ := getOrMakeTableInPml4_link
    (s := { s with
      mem := linked (linked s.mem a (slot4 (vpn va)) f₃
        (f₃ ||| ptePresent ||| pteWritable ||| pteUser))
        f₃ (slot3 (vpn va)) f₂ (f₂ ||| ptePresent ||| pteWritable ||| pteUser)
      pmm := p₂ }) (i := slot2 (vpn va)) hf₂ (hzero hf₃ hf₂ hd₂) h₁ hf₁.1 hf₁.2.1
  exact userMap4kInPml4_of_levels rfl g₃ (by rw [hrefers ha hf₃]; exact g₂)
    (by rw [hrefers hf₃ hf₂]; exact g₁) rfl hne.1 hne.2.1 hne.2.2 pa w x

/-- A mapping whose tables are all there already, in different frames. -/
theorem userMap4kInPml4_of_tables {s : MmState} {a va e₄ e₃ e₂ base : U64}
    (hbase : s.getHhdmBase = base) (ha : IsFrame a) (h₄ : entry s.mem a (slot4 (vpn va)) = e₄)
    (h₃ : entry s.mem (pteToPhys e₄) (slot3 (vpn va)) = e₃)
    (h₂ : entry s.mem (pteToPhys e₃) (slot2 (vpn va)) = e₂)
    (hp : HasFlag e₄ ptePresent ∧ HasFlag e₃ ptePresent ∧ HasFlag e₂ ptePresent)
    (hd : pteToPhys e₄ ≠ a ∧ pteToPhys e₃ ≠ a ∧ pteToPhys e₃ ≠ pteToPhys e₄)
    (hne : pteToPhys e₄ + base ≠ 0#64 ∧ pteToPhys e₃ + base ≠ 0#64 ∧ pteToPhys e₂ + base ≠ 0#64)
    (pa : U64) (w x : Bool) :
    (userMap4kInPml4 s a va pa w x).2.mem =
      setEntry (setEntry (setEntry (setEntry s.mem a (slot4 (vpn va)) (e₄ ||| pteUser))
        (pteToPhys e₄) (slot3 (vpn va)) (e₃ ||| pteUser))
        (pteToPhys e₃) (slot2 (vpn va)) (e₂ ||| pteUser))
        (pteToPhys e₂) (slot1 (vpn va)) ((pa &&& pteAddrMask) ||| userPteFlags w x) := by
  have hlevel : ∀ {m : Mem} {t e : U64} {i : BitVec 9}, IsFrame t → entry m t i = e →
      HasFlag e ptePresent → getOrMakeTableInPml4 { s with mem := m } t (i.setWidth 64) pteUser =
        (pteToPhys e + base, { s with mem := setEntry m t i (e ||| pteUser) }) := by
    intro m t e i ht he hpres
    have hget := getOrMakeTableInPml4_present (s := { s with mem := m }) ht (he ▸ hpres)
    rw [he] at hget
    rw [hget, ← hbase]
    rfl
  have hf₃ := pteToPhys_isFrame e₄
  have hf₂ := pteToPhys_isFrame e₃
  have g₃ := hlevel ha h₄ hp.1
  -- the next level reads its own entry as it was, and the reference just written
  generalize hm₃ : setEntry s.mem a (slot4 (vpn va)) (e₄ ||| pteUser) = m₃ at g₃ ⊢
  have hr₃ : pteToPhys (entry m₃ a (slot4 (vpn va))) = pteToPhys e₄ := by
    rw [← hm₃, entry_setEntry _ ha ha, if_pos ⟨rfl, rfl⟩, pteToPhys_or_user]
  have he₃ : entry m₃ (pteToPhys e₄) (slot3 (vpn va)) = e₃ := by
    rw [← hm₃, entry_setEntry _ ha hf₃, if_neg (fun h => hd.1 h.1), h₃]
  have he₂ : entry m₃ (pteToPhys e₃) (slot2 (vpn va)) = e₂ := by
    rw [← hm₃, entry_setEntry _ ha hf₂, if_neg (fun h => hd.2.1 h.1), h₂]
  have g₂ := hlevel hf₃ he₃ hp.2.1
  generalize hm₂ : setEntry m₃ (pteToPhys e₄) (slot3 (vpn va)) (e₃ ||| pteUser) = m₂ at g₂ ⊢
  have hr₂ : pteToPhys (entry m₂ (pteToPhys e₄) (slot3 (vpn va))) = pteToPhys e₃ := by
    rw [← hm₂, entry_setEntry _ hf₃ hf₃, if_pos ⟨rfl, rfl⟩, pteToPhys_or_user]
  have he₂' : entry m₂ (pteToPhys e₃) (slot2 (vpn va)) = e₂ := by
    rw [← hm₂, entry_setEntry _ hf₃ hf₂, if_neg (fun h => hd.2.2 h.1), he₂]
  have g₁ := hlevel hf₂ he₂' hp.2.2
  generalize setEntry m₂ (pteToPhys e₃) (slot2 (vpn va)) (e₂ ||| pteUser) = m₁ at g₁ ⊢
  have hnext₃ : getOrMakeTableInPml4 { s with mem := m₃ }
      (pteToPhys (entry m₃ a (slot4 (vpn va)))) ((slot3 (vpn va)).setWidth 64) pteUser =
        (pteToPhys e₃ + base, { s with mem := m₂ }) := by
    rw [hr₃, g₂]
  have hnext₂ : getOrMakeTableInPml4 { s with mem := m₂ }
      (pteToPhys (entry m₂ (pteToPhys e₄) (slot3 (vpn va))))
        ((slot2 (vpn va)).setWidth 64) pteUser =
        (pteToPhys e₂ + base, { s with mem := m₁ }) := by
    rw [hr₂, g₁]
  rw [userMap4kInPml4_of_levels hbase g₃ hnext₃ hnext₂ hbase hne.1 hne.2.1 hne.2.2]

/-! ## Copying the kernel half -/

/-- One more round of the copying loop, wherever it reads from. -/
theorem copyKernelHalf_round {s : MmState} {dst src : U64} {n : Nat} (hn : n < 256) {m' : Mem}
    (h : (List.range' 256 n).foldl
        (fun t i => t.store s.getHhdmBase (s.physToVirt dst) (BitVec.ofNat 64 i)
          (t.load s.getHhdmBase src (BitVec.ofNat 64 i))) s = { s with mem := m' }) :
    (List.range' 256 (n + 1)).foldl
        (fun t i => t.store s.getHhdmBase (s.physToVirt dst) (BitVec.ofNat 64 i)
          (t.load s.getHhdmBase src (BitVec.ofNat 64 i))) s =
      { s with
        mem := setEntry m' dst (BitVec.ofNat 9 (256 + n))
          (MmState.load { s with mem := m' } s.getHhdmBase src
            ((BitVec.ofNat 9 (256 + n)).setWidth 64)) } := by
  have hidx : BitVec.ofNat 64 (256 + n) = (BitVec.ofNat 9 (256 + n)).setWidth 64 := by
    apply BitVec.eq_of_toNat_eq
    simp only [BitVec.toNat_ofNat, BitVec.toNat_setWidth]
    omega
  rw [List.range'_1_concat, List.foldl_append, h]
  simp only [List.foldl_cons, List.foldl_nil]
  rw [hidx, MmState.physToVirt, MmState.store_window]

/-- Copying the kernel half, from wherever, leaves the low half of the target. -/
theorem copyKernelHalf_low (s : MmState) {dst : U64} (hdst : IsFrame dst) (src : U64) :
    ∃ m', copyKernelHalf s (s.physToVirt dst) src = { s with mem := m' } ∧
      ∀ j : BitVec 9, j.toNat < 256 → entry m' dst j = entry s.mem dst j := by
  have hloop : ∀ n ≤ 256, ∃ m', (List.range' 256 n).foldl
      (fun t i => t.store s.getHhdmBase (s.physToVirt dst) (BitVec.ofNat 64 i)
        (t.load s.getHhdmBase src (BitVec.ofNat 64 i))) s = { s with mem := m' } ∧
      ∀ j : BitVec 9, j.toNat < 256 → entry m' dst j = entry s.mem dst j := by
    intro n hn
    induction n with
    | zero => exact ⟨s.mem, rfl, fun _ _ => rfl⟩
    | succ n ih =>
      obtain ⟨m', hfold, hlow⟩ := ih (by omega)
      refine ⟨_, copyKernelHalf_round hn hfold, fun j hj => ?_⟩
      rw [entry_setEntry m' hdst hdst, if_neg, hlow j hj]
      rintro ⟨-, rfl⟩
      rw [BitVec.toNat_ofNat] at hj
      omega
  exact hloop 256 (Nat.le_refl _)

/-- After `n` rounds of the copying loop the slots 256 up to `256 + n` are
copied, and nothing else has changed. -/
theorem copyKernelHalf_loop (s : MmState) {dst src : U64} (hdst : IsFrame dst) (hsrc : IsFrame src)
    (hne : src ≠ dst) (n : Nat) (hn : n ≤ 256) :
    ∃ m', (List.range' 256 n).foldl
        (fun t i => t.store s.getHhdmBase (s.physToVirt dst) (BitVec.ofNat 64 i)
          (t.load s.getHhdmBase (s.physToVirt src) (BitVec.ofNat 64 i))) s = { s with mem := m' } ∧
      ∀ t j, IsFrame t → entry m' t j =
        if t = dst ∧ 256 ≤ j.toNat ∧ j.toNat < 256 + n then entry s.mem src j
        else entry s.mem t j := by
  induction n with
  | zero =>
    refine ⟨s.mem, rfl, fun t j _ => ?_⟩
    rw [if_neg (by omega)]
  | succ n ih =>
    obtain ⟨m', hfold, hm'⟩ := ih (by omega)
    refine ⟨setEntry m' dst (BitVec.ofNat 9 (256 + n)) (entry s.mem src (BitVec.ofNat 9 (256 + n))),
      ?_, fun t j ht => ?_⟩
    · rw [copyKernelHalf_round hn hfold]
      -- the source is another frame, so this round reads what was there at the start
      rw [MmState.physToVirt, MmState.load_window, hm' src _ hsrc, if_neg (fun h => hne h.1)]
    · rw [entry_setEntry m' hdst ht, hm' t j ht]
      have hj : j = BitVec.ofNat 9 (256 + n) ↔ j.toNat = 256 + n := by
        rw [← BitVec.toNat_inj, BitVec.toNat_ofNat]
        omega
      by_cases htd : t = dst
      · subst htd
        simp only [true_and, hj]
        split
        · rename_i hj'
          rw [if_pos (by omega), hj.mpr hj']
        · split
          · rw [if_pos (by omega)]
          · rw [if_neg (by omega)]
      · rw [if_neg (fun h => htd h.1), if_neg (fun h => htd h.1), if_neg (fun h => htd h.1)]

/-- Copying the kernel half changes slots 256..511 of the target and nothing
else. -/
theorem copyKernelHalf_spec (s : MmState) {dst src : U64} (hdst : IsFrame dst) (hsrc : IsFrame src)
    (hne : src ≠ dst) :
    ∃ m', copyKernelHalf s (s.physToVirt dst) (s.physToVirt src) = { s with mem := m' } ∧
      ∀ t j, IsFrame t → entry m' t j =
        if t = dst ∧ 256 ≤ j.toNat then entry s.mem src j else entry s.mem t j := by
  obtain ⟨m', hfold, hm'⟩ := copyKernelHalf_loop s hdst hsrc hne 256 (Nat.le_refl _)
  refine ⟨m', hfold, fun t j ht => ?_⟩
  have hj := j.isLt
  rw [hm' t j ht]
  simp only [show j.toNat < 256 + 256 from hj, and_true]

/-- A cleared page with the kernel half of `src` copied in. -/
theorem copyKernelHalf_zeroed (s : MmState) {f src : U64} (hf : IsFrame f) (hsrc : IsFrame src)
    (hne : src ≠ f) :
    ∃ m', copyKernelHalf { s with mem := zeroed s.mem f 4096 } (s.physToVirt f) (s.physToVirt src) =
        { s with mem := m' } ∧
      ∀ t j, IsFrame t → entry m' t j =
        if t = f then (if 256 ≤ j.toNat then entry s.mem src j else 0#64) else entry s.mem t j := by
  obtain ⟨m', hcopy, hm'⟩ := copyKernelHalf_spec { s with mem := zeroed s.mem f 4096 } hf hsrc hne
  refine ⟨m', hcopy, fun t j ht => ?_⟩
  rw [hm' t j ht, entry_zeroed _ hf hsrc, entry_zeroed _ hf ht, if_neg hne]
  by_cases htf : t = f
  · simp only [htf, true_and, if_true]
  · simp only [htf, false_and, if_false]

end Myria.Mm
