import Myria.Mm.State
import Myria.Mm.Translate

/-! Which frames an operation changes, and which pages it takes. The edits of
page tables are stores into one table and the clearing of fresh pages, so what
they may touch is said frame by frame. -/
namespace Myria.Mm

open ByteMem RadixForest

/-! ## Frames and bytes -/

/-- The bytes of a frame lie in it. -/
theorem IsFrame.pageAlignDown_add {t : U64} (h : IsFrame t) {k : U64} (hk : k.toNat < 4096) :
    pageAlignDown (t + k) = t := by
  obtain ⟨hal, hlt⟩ := (isFrame_iff t).mp h
  apply BitVec.eq_of_toNat_eq
  rw [pageAlignDown_toNat, BitVec.toNat_add]
  omega

/-- An address less than a page above a frame lies in it. -/
theorem IsFrame.pageAlignDown_of_sub {t a : U64} (h : IsFrame t) (ha : (a - t).toNat < 4096) :
    pageAlignDown a = t := by
  have hin := h.pageAlignDown_add ha
  rwa [add_sub_cancel] at hin

/-- The memories `m` and `m'` differ in the frames `F` only. -/
def ChangedOnlyIn (F : U64 → Prop) (m m' : Mem) : Prop := ∀ a, m' a ≠ m a → F (pageAlignDown a)

section

variable {F G : U64 → Prop} {m m' m'' : Mem} {t f : U64}

theorem ChangedOnlyIn.refl (F : U64 → Prop) (m : Mem) : ChangedOnlyIn F m m :=
  fun _ ha => absurd rfl ha

theorem ChangedOnlyIn.mono (h : ChangedOnlyIn F m m') (hFG : ∀ b, F b → G b) :
    ChangedOnlyIn G m m' := fun a ha => hFG _ (h a ha)

theorem ChangedOnlyIn.trans (h : ChangedOnlyIn F m m') (h' : ChangedOnlyIn F m' m'') :
    ChangedOnlyIn F m m'' := by
  intro a ha
  by_cases heq : m' a = m a
  · exact h' a (heq ▸ ha)
  · exact h a heq

/-- Bytes of other frames stay, -/
theorem ChangedOnlyIn.byte_eq (h : ChangedOnlyIn F m m') (ht : IsFrame t) (hF : ¬ F t) {k : U64}
    (hk : k.toNat < 4096) : m' (t + k) = m (t + k) := by
  by_contra hne
  have hin := h _ hne
  rw [ht.pageAlignDown_add hk] at hin
  exact hF hin

/-- The eight bytes of an entry. -/
theorem tableSlot_add (t : U64) (i : BitVec 9) {k : U64} (hk : k.toNat < 8) :
    ∃ d : U64, d.toNat < 4096 ∧ tableSlot t (i.setWidth 64) + k = t + d := by
  have hi := i.isLt
  refine ⟨8#64 * i.setWidth 64 + k, ?_, by rw [tableSlot, BitVec.add_assoc]⟩
  simp only [BitVec.toNat_add, BitVec.toNat_mul, BitVec.toNat_setWidth, BitVec.toNat_ofNat]
  omega

/-- and so do their entries. -/
theorem entry_congr (h : ∀ k : U64, k.toNat < 4096 → m' (t + k) = m (t + k)) (j : BitVec 9) :
    entry m' t j = entry m t j := by
  apply read64_congr
  intro k hk
  obtain ⟨d, hd, heq⟩ := tableSlot_add t j hk
  rw [heq]
  exact h d hd

theorem ChangedOnlyIn.entry_eq (h : ChangedOnlyIn F m m') (ht : IsFrame t) (hF : ¬ F t)
    (j : BitVec 9) : entry m' t j = entry m t j :=
  entry_congr (fun _ hk => h.byte_eq ht hF hk) j

/-- A changed entry lies in a changed frame. -/
theorem ChangedOnlyIn.of_entry_ne (h : ChangedOnlyIn F m m') (ht : IsFrame t) {j : BitVec 9}
    (hne : entry m' t j ≠ entry m t j) : F t :=
  not_not.mp fun hF => hne (h.entry_eq ht hF j)

/-- Conversely the entries of a frame make up its bytes. -/
theorem byte_eq_of_entry (h : ∀ j, entry m' t j = entry m t j) {k : U64} (hk : k.toNat < 4096) :
    m' (t + k) = m (t + k) := by
  have hr : k.toNat % 8 < 8 := Nat.mod_lt _ (by decide)
  have haddr : tableSlot t ((BitVec.ofNat 9 (k.toNat / 8)).setWidth 64) +
      BitVec.ofNat 64 (k.toNat % 8) = t + k := by
    rw [tableSlot, BitVec.add_assoc]
    congr 1
    apply BitVec.eq_of_toNat_eq
    simp only [BitVec.toNat_add, BitVec.toNat_mul, BitVec.toNat_setWidth, BitVec.toNat_ofNat]
    omega
  rw [← haddr, ← read64_byte m' _ hr, ← read64_byte m _ hr]
  exact congrArg (BitVec.extractLsb' _ 8) (h _)

/-- Frame `t` holds the bytes `g 0`, `g 1`, …, `g 4095`. -/
def FrameHolds (m : Mem) (t : U64) (g : Nat → BitVec 8) : Prop :=
  ∀ k : U64, k.toNat < 4096 → m (t + k) = g k.toNat

theorem FrameHolds.of_entry_eq {g : Nat → BitVec 8} (H : FrameHolds m t g)
    (h : ∀ j, entry m' t j = entry m t j) : FrameHolds m' t g := by
  intro k hk
  rw [byte_eq_of_entry h hk]
  exact H k hk

theorem changedOnlyIn_setEntry (m : Mem) (ht : IsFrame t) (i : BitVec 9) (v : U64) :
    ChangedOnlyIn (· = t) m (setEntry m t i v) := by
  intro a ha
  by_cases hin : (a - tableSlot t (i.setWidth 64)).toNat < 8
  · obtain ⟨d, hd, heq⟩ := tableSlot_add t i hin
    rw [add_sub_cancel] at heq
    rw [heq]
    exact ht.pageAlignDown_add hd
  · exact absurd (write64_byte_ne m _ v (Nat.not_lt.mp hin)) ha

/-- Storing what is there changes nothing. -/
theorem setEntry_entry (m : Mem) (t : U64) (i : BitVec 9) : setEntry m t i (entry m t i) = m :=
  write64_read64_self m _

theorem changedOnlyIn_filled (m : Mem) (hf : IsFrame f) {n : Nat} (hn : n ≤ 4096)
    (g : Nat → BitVec 8) : ChangedOnlyIn (· = f) m (filled m f n g) := by
  intro a ha
  apply hf.pageAlignDown_of_sub
  by_contra hge
  exact ha (if_neg (by omega))

theorem changedOnlyIn_zeroed (m : Mem) (hf : IsFrame f) {n : Nat} (hn : n ≤ 4096) :
    ChangedOnlyIn (· = f) m (zeroed m f n) := by
  rw [zeroed_eq_filled]
  exact changedOnlyIn_filled m hf hn fun _ => 0

theorem changedOnlyIn_linked (m : Mem) (ht : IsFrame t) (hf : IsFrame f) (i : BitVec 9) (v : U64) :
    ChangedOnlyIn (fun b => b = t ∨ b = f) m (linked m t i f v) :=
  ((changedOnlyIn_zeroed m hf (Nat.le_refl _)).mono fun _ => .inr).trans
    ((changedOnlyIn_setEntry _ ht i v).mono fun _ => .inl)

end

/-! ## Pages taken -/

/-- The pages handed out between the pools `p` and `p'`. -/
def Taken (p p' : Pmm) (b : U64) : Prop := p.Available b ∧ ¬ p'.Available b

theorem not_taken_self (p : Pmm) (b : U64) : ¬ Taken p p b := fun h => h.2 h.1

theorem Taken.mono {p p' p'' : Pmm} {b : U64} (h : Taken p p' b)
    (hfewer : ∀ b, p''.Available b → p'.Available b) : Taken p p'' b :=
  ⟨h.1, fun hb => h.2 (hfewer b hb)⟩

theorem TakesPage.taken_self {p p' : Pmm} {f : U64} (h : TakesPage p f p') : Taken p p' f :=
  ⟨h.available, h.taken⟩

/-- An allocation takes no other page. -/
theorem pmmAllocPage_taken {p p' : Pmm} {f b : U64} (h : p.Consistent)
    (heq : pmmAllocPage p = (f, p')) (hb : IsFrame b) (htaken : Taken p p' b) : b = f := by
  obtain ⟨hal, -⟩ := (isFrame_iff b).mp hb
  obtain ⟨hav, hna⟩ := htaken
  unfold pmmAllocPage at heq
  split at heq
  · rename_i page rest hf
    cases heq
    rcases hav with hmem | hrange
    · rcases List.mem_cons.mp (hf ▸ hmem) with rfl | hmem
      · rfl
      · exact absurd (.inl hmem) hna
    · exact absurd (.inr hrange) hna
  · rename_i hf
    split at heq
    · rename_i hlt
      cases heq
      rcases hav with hmem | ⟨hlo, hhi⟩
      · rw [hf] at hmem
        cases hmem
      · -- the pointer is aligned, so the next aligned address is a page further
        have halign := h.aligned
        have hnext := add_pageSize_toNat hlt
        have hge : ¬ p.nextPageAddr + pageSize ≤ b := fun hle => hna (.inr ⟨hle, hhi⟩)
        rw [BitVec.le_def] at hlo hge
        apply BitVec.eq_of_toNat_eq
        omega
    · cases heq
      exact absurd hav hna

/-! ## Tables among large pages -/

/-- The tables below `root`, reached through present entries that are no large
pages, form a tree of frames that the allocator will not hand out. -/
structure MmState.LaidOut (s : MmState) (root : U64) : Prop where
  tables : Tables tableRef (· = root) (fun _ => True) s.pmm.Available s.mem
  pmm : s.pmm.Consistent

/-- Frame `b` is one of these tables. -/
abbrev MmState.IsTable (s : MmState) (root b : U64) : Prop :=
  Reached (child tableRef s.mem) (· = root) 3 b

end Myria.Mm
