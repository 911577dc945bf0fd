import Myria.Mm.VmmFootprint
import Myria.Mm.WriteXorExecute

/-! `map_user_4k` in the presence of large pages. The checks for large pages, the
creation of tables and the opening of entries to user mode are interleaved, so a
failed call can leave a partly built path. What counts is where the walks of the
processor end: the leaf entry that each page is translated by. -/
namespace Myria.Mm

open ByteMem RadixForest Trace Traced

/-! ## The leaf entry of a page -/

/-- The entry that ends the processor's walk to page `v`, with its level: 0 for a
4 KiB page, 1 for 2 MiB and 2 for 1 GiB. -/
def hwLeaf (m : Mem) (root : U64) (v : BitVec 36) : Option (Nat × U64) :=
  let e4 := entry m root (slot4 v)
  -- bit 7 is reserved in a PML4 entry
  if ¬ HasFlag e4 ptePresent ∨ HasFlag e4 pteHugePage then none
  else
    let e3 := entry m (pteToPhys e4) (slot3 v)
    if ¬ HasFlag e3 ptePresent then none
    else if HasFlag e3 pteHugePage then some (2, e3)
    else
      let e2 := entry m (pteToPhys e3) (slot2 v)
      if ¬ HasFlag e2 ptePresent then none
      else if HasFlag e2 pteHugePage then some (1, e2)
      else
        let e1 := entry m (pteToPhys e2) (slot1 v)
        if ¬ HasFlag e1 ptePresent then none else some (0, e1)

/-- The walk to page `v` ends on level `n`, at entry `e`. -/
def LeafAt (m : Mem) (root : U64) (v : BitVec 36) (n : Nat) (e : U64) : Prop :=
  ∃ t, walk (child tableRef m) root ((tablePath v).take (3 - n)) = some t ∧
    entry m t (slotAt n v) = e ∧ HasFlag e ptePresent ∧ (n = 0 ∨ IsLarge n e)

theorem walk_tableRef_cons {m : Mem} {root t : U64} {i : BitVec 9} {p : List (BitVec 9)} :
    walk (child tableRef m) root (i :: p) = some t ↔
      (HasFlag (entry m root i) ptePresent ∧ ¬ HasFlag (entry m root i) pteHugePage) ∧
        walk (child tableRef m) (pteToPhys (entry m root i)) p = some t := by
  rw [walk, child, tableRef]
  split
  · rename_i h
    rw [Option.bind_some, and_iff_right h]
  · rename_i h
    simp [h]

section

variable {m : Mem} {root : U64} {v : BitVec 36} {n : Nat} {e : U64}

theorem LeafAt.of_hwLeaf (h : hwLeaf m root v = some (n, e)) : LeafAt m root v n e := by
  simp only [hwLeaf] at h
  split at h
  · cases h
  rename_i h4
  rw [not_or, not_not] at h4
  split at h
  · cases h
  rename_i h3
  split at h
  · rename_i hl
    cases h
    exact ⟨_, walk_tableRef_cons.mpr ⟨h4, rfl⟩, rfl, not_not.mp h3, .inr ((isLarge_two _).mpr hl)⟩
  rename_i hl3
  split at h
  · cases h
  rename_i h2
  split at h
  · rename_i hl
    cases h
    exact ⟨_, walk_tableRef_cons.mpr ⟨h4, walk_tableRef_cons.mpr ⟨⟨not_not.mp h3, hl3⟩, rfl⟩⟩, rfl,
      not_not.mp h2, .inr ((isLarge_one _).mpr hl)⟩
  rename_i hl2
  split at h
  · cases h
  rename_i h1
  cases h
  exact ⟨_, walk_tableRef_cons.mpr ⟨h4, walk_tableRef_cons.mpr ⟨⟨not_not.mp h3, hl3⟩,
    walk_tableRef_cons.mpr ⟨⟨not_not.mp h2, hl2⟩, rfl⟩⟩⟩, rfl, not_not.mp h1, .inl rfl⟩

theorem LeafAt.hwLeaf_eq (h : LeafAt m root v n e) : hwLeaf m root v = some (n, e) := by
  obtain ⟨t, hw, he, hp, hlevel⟩ := h
  have hroot : ∀ {e4}, HasFlag e4 ptePresent ∧ ¬ HasFlag e4 pteHugePage →
      ¬ (¬ HasFlag e4 ptePresent ∨ HasFlag e4 pteHugePage) :=
    fun h4 h => h.elim (fun hno => hno h4.1) h4.2
  unfold hwLeaf
  rcases hlevel with rfl | ⟨rfl | rfl, hl⟩
  · obtain ⟨h4, hw⟩ := walk_tableRef_cons.mp hw
    obtain ⟨h3, hw⟩ := walk_tableRef_cons.mp hw
    obtain ⟨h2, hw⟩ := walk_tableRef_cons.mp hw
    rw [← Option.some.inj hw, show slotAt 0 v = slot1 v from rfl] at he
    simp only [if_neg (hroot h4), if_neg (not_not.mpr h3.1), if_neg h3.2, if_neg (not_not.mpr h2.1),
      if_neg h2.2, he, if_neg (not_not.mpr hp)]
  · obtain ⟨h4, hw⟩ := walk_tableRef_cons.mp hw
    obtain ⟨h3, hw⟩ := walk_tableRef_cons.mp hw
    rw [← Option.some.inj hw, show slotAt 1 v = slot2 v from rfl] at he
    simp only [if_neg (hroot h4), if_neg (not_not.mpr h3.1), if_neg h3.2, he,
      if_neg (not_not.mpr hp), if_pos hl]
  · obtain ⟨h4, hw⟩ := walk_tableRef_cons.mp hw
    rw [← Option.some.inj hw, show slotAt 2 v = slot3 v from rfl] at he
    simp only [if_neg (hroot h4), he, if_neg (not_not.mpr hp), if_pos hl]

end

/-- Where all leaves are the same, so is what the walk finds. -/
theorem hwLeaf_congr {m m' : Mem} {root : U64} {v : BitVec 36}
    (h : ∀ n e, LeafAt m' root v n e ↔ LeafAt m root v n e) :
    hwLeaf m' root v = hwLeaf m root v := by
  apply Option.ext
  rintro ⟨n, e⟩
  constructor
  · exact fun hm => ((h n e).mp (.of_hwLeaf hm)).hwLeaf_eq
  · exact fun hm => ((h n e).mpr (.of_hwLeaf hm)).hwLeaf_eq

/-! ## Edits that keep the leaves -/

theorem length_take_tablePath (v : BitVec 36) (n : Nat) :
    ((tablePath v).take (3 - n)).length = 3 - n := by
  rw [List.length_take, tablePath]
  simp

/-- An edit that changes no walk keeps the leaves of `v` on level `n` if it keeps
the entry there, or if that is above the page tables and no large page. -/
theorem leafAt_congr {m m' : Mem} {root : U64} {v : BitVec 36} {n : Nat} {e : U64}
    (hwalk : ∀ p, p.length ≤ 3 →
      walk (child tableRef m') root p = walk (child tableRef m) root p)
    (hentry : ∀ t, walk (child tableRef m) root ((tablePath v).take (3 - n)) = some t →
      entry m' t (slotAt n v) = entry m t (slotAt n v) ∨
        (n ≠ 0 ∧ ¬ IsLarge n (entry m t (slotAt n v)) ∧ ¬ IsLarge n (entry m' t (slotAt n v)))) :
    LeafAt m' root v n e ↔ LeafAt m root v n e := by
  unfold LeafAt
  rw [hwalk _ (by rw [length_take_tablePath]; omega)]
  refine exists_congr fun t => and_congr_right fun hw => ?_
  rcases hentry t hw with heq | ⟨hn, hold, hnew⟩
  · rw [heq]
  · constructor <;> rintro ⟨rfl, -, h0 | hl⟩
    · exact absurd h0 hn
    · exact absurd hl hnew
    · exact absurd h0 hn
    · exact absurd hl hold

section

variable {m : Mem} {root t : U64} {Avail : U64 → Prop} {p₀ : List (BitVec 9)} {i : BitVec 9}
  (T : Tables tableRef (· = root) (fun _ => True) Avail m)
include T

/-- A table above the page tables is not where a walk of full length ends. -/
theorem level_ne_zero (hp₀ : p₀.length ≤ 2) (hw₀ : walk (child tableRef m) root p₀ = some t)
    {v : BitVec 36} {n : Nat}
    (hw : walk (child tableRef m) root ((tablePath v).take (3 - n)) = some t) : n ≠ 0 := by
  rintro rfl
  obtain ⟨-, hp⟩ := T.forest _ _ _ _ _ rfl rfl (by rw [length_take_tablePath]) (by omega) hw hw₀
  have hlen := congrArg List.length hp
  rw [length_take_tablePath] at hlen
  omega

/-- Opening an entry that refers to a table. -/
theorem openSlot_spec (hp₀ : p₀.length ≤ 2) (hw₀ : walk (child tableRef m) root p₀ = some t)
    {u : U64} (hd : child tableRef m t i = some u) :
    Tables tableRef (· = root) (fun _ => True) Avail (openSlot m t i) ∧
      (∀ p, p.length ≤ 3 →
        walk (child tableRef (openSlot m t i)) root p = walk (child tableRef m) root p) ∧
      ∀ v n e, LeafAt (openSlot m t i) root v n e ↔ LeafAt m root v n e := by
  have ht : IsFrame t := T.isFrame rfl (by omega) hw₀
  have hplain : ¬ HasFlag (entry m t i) pteHugePage := by
    intro hl
    rw [child, tableRef, if_neg (fun h => h.2 hl)] at hd
    cases hd
  have hsame : tableRef t i (entry m t i ||| pteUser) = tableRef t i (entry m t i) := by
    have hflag : ∀ flag, ¬ HasFlag pteUser flag →
        (HasFlag (entry m t i ||| pteUser) flag ↔ HasFlag (entry m t i) flag) :=
      fun flag hno => hasFlag_or.trans (or_iff_left hno)
    have hp := hflag ptePresent (by decide)
    have hl := hflag pteHugePage (by decide)
    simp only [tableRef, hp, hl, pteToPhys_or_user]
  obtain ⟨hT, hwalk, -⟩ := T.retag (i := i) (v := entry m t i ||| pteUser) rfl hp₀ hw₀ hsame trivial
  have hwalk : ∀ p, p.length ≤ 3 →
      walk (child tableRef (openSlot m t i)) root p = walk (child tableRef m) root p :=
    fun p hp => hwalk root p rfl hp
  refine ⟨hT, hwalk, fun v n e => leafAt_congr hwalk fun t' hw => ?_⟩
  have ht' : IsFrame t' := T.isFrame rfl (by rw [length_take_tablePath]; omega) hw
  rw [isLarge_openSlot m ht ht']
  by_cases hat : t' = t ∧ slotAt n v = i
  · obtain ⟨rfl, rfl⟩ := hat
    exact .inr ⟨level_ne_zero T hp₀ hw₀ hw, fun h => hplain h.2, fun h => hplain h.2⟩
  · exact .inl (by rw [entry_openSlot m ht ht', if_neg hat])

/-- Writing an entry of the page table of `v₀` matters to `v₀` alone. -/
theorem leafAt_setEntry {v₀ : BitVec 36}
    (hw₀ : walk (child tableRef m) root (tablePath v₀) = some t) (w : U64) {v : BitVec 36}
    (hv : v ≠ v₀) (n : Nat) (e : U64) :
    LeafAt (setEntry m t (slot1 v₀) w) root v n e ↔ LeafAt m root v n e := by
  have hfull : (tablePath v₀).length ≤ 3 := Nat.le_refl 3
  have ht : IsFrame t := T.isFrame rfl hfull hw₀
  obtain ⟨-, hwalk, -⟩ := T.setLeaf (i := slot1 v₀) rfl rfl hw₀ w
  refine leafAt_congr (fun p hp => hwalk root p rfl hp) fun t' hw => .inl ?_
  have hlen : ((tablePath v).take (3 - n)).length ≤ 3 := by
    rw [length_take_tablePath]
    omega
  rw [entry_setEntry m ht (T.isFrame rfl hlen hw), if_neg]
  rintro ⟨rfl, hslot⟩
  -- the same table is reached by the same path, so this is page `v₀`
  obtain ⟨-, hp⟩ := T.forest _ _ _ _ _ rfl rfl hlen hfull hw hw₀
  have hn : n = 0 := by
    have hlen' := congrArg List.length hp
    rw [length_take_tablePath, tablePath] at hlen'
    simp only [List.length_cons, List.length_nil] at hlen'
    omega
  subst hn
  exact hv (tablePath_slot1_inj hp hslot)

/-- Linking a fresh table under an absent entry. -/
theorem leafAt_linked {Avail' : U64 → Prop} {f w : U64}
    (L : Linkable tableRef (· = root) (fun _ => True) Avail Avail' m root p₀ t i f w)
    (habsent : ¬ HasFlag (entry m t i) ptePresent) (hplain : ¬ HasFlag w pteHugePage)
    (v : BitVec 36) (n : Nat) (e : U64) :
    LeafAt (linked m t i f w) root v n e ↔ LeafAt m root v n e := by
  have hlen : ((tablePath v).take (3 - n)).length ≤ 3 := by
    rw [length_take_tablePath]
    omega
  unfold LeafAt
  rw [T.walk_linked L rfl hlen]
  by_cases hat : (tablePath v).take (3 - n) = p₀ ++ [i]
  · -- nothing was reached this way, and now it is an empty table
    rw [if_pos ⟨rfl, hat⟩, hat, walk_concat, L.walks, Option.bind_some, L.empty]
    constructor
    · rintro ⟨t', hf, he, hp, -⟩
      cases hf
      rw [entry_linked_fresh m (T.parent_isFrame L) L.frame (T.parent_ne L)] at he
      exact absurd (he ▸ hp) (not_hasFlag_zero _)
    · rintro ⟨t', hw, -⟩
      cases hw
  · rw [if_neg (fun h => hat h.2)]
    refine exists_congr fun t' => and_congr_right fun hw => ?_
    rw [T.entry_link L ⟨root, _, rfl, hlen, hw⟩]
    by_cases hslot : t' = t ∧ slotAt n v = i
    · obtain ⟨rfl, rfl⟩ := hslot
      have hn := level_ne_zero T L.depth L.walks hw
      rw [if_pos ⟨rfl, rfl⟩]
      constructor
      · rintro ⟨rfl, -, h0 | hl⟩
        · exact absurd h0 hn
        · exact absurd hl.2 hplain
      · rintro ⟨rfl, hp, -⟩
        exact absurd hp habsent
    · rw [if_neg hslot]

end

/-! ## The entry for a new table -/

theorem IsFrame.not_huge_newTableEntry {f : U64} (hf : IsFrame f) :
    ¬ HasFlag (newTableEntry f) pteHugePage := by
  rw [newTableEntry_eq, hasFlag_or, not_or]
  exact ⟨hf.not_hasFlag (by decide), by decide⟩

theorem tableRef_newTableEntry {f : U64} (hf : IsFrame f) (t : U64) (i : BitVec 9) :
    tableRef t i (newTableEntry f) = some f := by
  have hpres : HasFlag (newTableEntry f) ptePresent := by
    rw [newTableEntry_eq]
    exact hasFlag_or.mpr (.inr (by decide))
  rw [tableRef, if_pos ⟨hpres, hf.not_huge_newTableEntry⟩, hf.pteToPhys_newTableEntry]

/-- What links a page just taken. -/
theorem linkable_newTableEntry {s : MmState} {root t f : U64} {p : List (BitVec 9)} {i : BitVec 9}
    {p' : Pmm} (hp : p.length ≤ 2) (hw : walk (child tableRef s.mem) root p = some t)
    (habsent : ¬ HasFlag (entry s.mem t i) ptePresent) (htake : TakesPage s.pmm f p') :
    Linkable tableRef (· = root) (fun _ => True) s.pmm.Available p'.Available s.mem root p t i f
      (newTableEntry f) where
  root := rfl
  depth := hp
  walks := hw
  empty := if_neg fun hd => habsent hd.1
  frame := htake.isFrame
  available := htake.available
  taken := htake.taken
  fewer := htake.fewer
  refers := tableRef_newTableEntry htake.isFrame t i
  ok := trivial
  zero := tableRef_zero

/-! ## What a call may do to the memory it finds -/

/-- From `s₀` to `s`, only tables of `s₀` and pages taken since have changed, and
no entry for a large page. -/
structure Harmless (root : U64) (s₀ s : MmState) : Prop where
  confined : ChangedOnlyIn (fun b => s₀.IsTable root b ∨ Taken s₀.pmm s.pmm b) s₀.mem s.mem
  large : ∀ p t i, p.length ≤ 2 → walk (child tableRef s₀.mem) root p = some t →
    HasFlag (entry s₀.mem t i) ptePresent → HasFlag (entry s₀.mem t i) pteHugePage →
    entry s.mem t i = entry s₀.mem t i

/-- Besides, the tables are in order and all leaves are what they were. -/
structure Kept (root : U64) (s₀ s : MmState) : Prop extends Harmless root s₀ s where
  laidOut : s.LaidOut root
  cr3 : s.cr3 = s₀.cr3
  fewer : ∀ b, s.pmm.Available b → s₀.pmm.Available b
  walks : ∀ p t, p.length ≤ 3 → walk (child tableRef s₀.mem) root p = some t →
    walk (child tableRef s.mem) root p = some t
  tables : ∀ b, s.IsTable root b → s₀.IsTable root b ∨ Taken s₀.pmm s.pmm b
  leaves : ∀ v n e, LeafAt s.mem root v n e ↔ LeafAt s₀.mem root v n e

section

variable {root : U64} {s₀ s : MmState}

theorem Kept.refl (h : s.LaidOut root) : Kept root s s where
  confined := ChangedOnlyIn.refl _ _
  large := fun _ _ _ _ _ _ _ => rfl
  laidOut := h
  cr3 := rfl
  fewer := fun _ hb => hb
  walks := fun _ _ _ hw => hw
  tables := fun _ hb => .inl hb
  leaves := fun _ _ _ => Iff.rfl

variable (h : Kept root s₀ s) {p : List (BitVec 9)} {t f : U64} {i : BitVec 9} {p' : Pmm}
include h

/-- A table of `s₀` is none of the pages that are still available. -/
theorem Kept.table_ne (hav : s.pmm.Available f) {b : U64} (hb : s₀.IsTable root b) : b ≠ f := by
  rintro rfl
  obtain ⟨r, q, rfl, hq, hw⟩ := hb
  exact h.laidOut.tables.unavailable b ⟨_, q, rfl, hq, h.walks q b hq hw⟩ hav

/-- A store into a table, at an entry that is not for a large page. -/
theorem Kept.store (hp : p.length ≤ 3) (hw : walk (child tableRef s.mem) root p = some t)
    (hplain : p.length ≤ 2 →
      ¬ (HasFlag (entry s.mem t i) ptePresent ∧ HasFlag (entry s.mem t i) pteHugePage)) (w : U64) :
    Harmless root s₀ { s with mem := setEntry s.mem t i w } := by
  have ht : IsFrame t := h.laidOut.tables.isFrame rfl hp hw
  constructor
  · refine h.confined.trans ((changedOnlyIn_setEntry s.mem ht i w).mono ?_)
    rintro b rfl
    exact h.tables b ⟨root, p, rfl, hp, hw⟩
  · intro q a j hq ha hpres hlarge
    have hold := h.large q a j hq ha hpres hlarge
    have ha' := h.walks q a (by omega) ha
    rw [entry_setEntry s.mem ht (h.laidOut.tables.isFrame rfl (by omega) ha'), if_neg, hold]
    rintro ⟨rfl, rfl⟩
    -- reached by one path only, and not through an entry for a large page
    obtain ⟨-, rfl⟩ := h.laidOut.tables.forest _ _ _ _ _ rfl rfl (by omega) hp ha' hw
    rw [hold] at hplain
    exact hplain hq ⟨hpres, hlarge⟩

theorem Kept.confined_mono (hfewer : ∀ b, p'.Available b → s.pmm.Available b) :
    ChangedOnlyIn (fun b => s₀.IsTable root b ∨ Taken s₀.pmm p' b) s₀.mem s.mem :=
  h.confined.mono fun _ hb => hb.imp_right fun htaken => htaken.mono hfewer

/-- A page taken and cleared in part. -/
theorem Kept.clearing (htake : TakesPage s.pmm f p') {x : MmState}
    (hx : Clearing { s with pmm := p' } f x) : Harmless root s₀ x := by
  obtain ⟨n, hn, rfl⟩ := hx
  have hf : IsFrame f := htake.isFrame
  have hnew : Taken s₀.pmm p' f := ⟨h.fewer f htake.available, htake.taken⟩
  constructor
  · refine (h.confined_mono htake.fewer).trans ((changedOnlyIn_zeroed s.mem hf hn).mono ?_)
    rintro b rfl
    exact .inr hnew
  · intro q a j hq ha hpres hlarge
    have hframe := h.laidOut.tables.isFrame rfl (by omega) (h.walks q a (by omega) ha)
    have hne := h.table_ne htake.available ⟨root, q, rfl, by omega, ha⟩
    rw [← h.large q a j hq ha hpres hlarge]
    exact entry_zeroed_ne s.mem hf hframe hne hn j

/-- An entry that refers to a table is opened. -/
theorem Kept.opened (hp : p.length ≤ 2) (hw : walk (child tableRef s.mem) root p = some t) {u : U64}
    (hd : child tableRef s.mem t i = some u) :
    Kept root s₀ { s with mem := openSlot s.mem t i } := by
  obtain ⟨hT, hwalk, hleaves⟩ := openSlot_spec h.laidOut.tables hp hw hd
  have hplain : ¬ (HasFlag (entry s.mem t i) ptePresent ∧
      HasFlag (entry s.mem t i) pteHugePage) := by
    intro hl
    rw [child, tableRef, if_neg (fun hno => hno.2 hl.2)] at hd
    cases hd
  refine ⟨h.store (by omega) hw (fun _ => hplain) _, ⟨hT, h.laidOut.pmm⟩, h.cr3,
    h.fewer, ?_, ?_, ?_⟩
  · intro q a hq ha
    exact (hwalk q hq).trans (h.walks q a hq ha)
  · rintro b ⟨r, q, rfl, hq, hb⟩
    exact h.tables b ⟨_, q, rfl, hq, (hwalk q hq).symm.trans hb⟩
  · exact fun v n e => (hleaves v n e).trans (h.leaves v n e)

/-- A page just taken is linked under an absent entry. -/
theorem Kept.link (hp : p.length ≤ 2) (hw : walk (child tableRef s.mem) root p = some t)
    (habsent : ¬ HasFlag (entry s.mem t i) ptePresent) (htake : TakesPage s.pmm f p') :
    Kept root s₀ { s with mem := linked s.mem t i f (newTableEntry f), pmm := p' } := by
  have T := h.laidOut.tables
  have L := linkable_newTableEntry hp hw habsent htake
  have hf : IsFrame f := htake.isFrame
  have hnew : Taken s₀.pmm p' f := ⟨h.fewer f htake.available, htake.taken⟩
  have htable : ∀ b, s.IsTable root b → s₀.IsTable root b ∨ Taken s₀.pmm p' b :=
    fun b hb => (h.tables b hb).imp_right fun htaken => htaken.mono htake.fewer
  refine ⟨⟨?_, ?_⟩, ⟨T.link L, htake.consistent⟩, h.cr3,
    fun b hb => h.fewer b (htake.fewer b hb), ?_, ?_, ?_⟩
  · refine (h.confined_mono htake.fewer).trans
      ((changedOnlyIn_linked s.mem (T.parent_isFrame L) hf i _).mono ?_)
    rintro b (rfl | rfl)
    · exact htable b ⟨root, p, rfl, by omega, hw⟩
    · exact .inr hnew
  · intro q a j hq ha hpres hlarge
    have hold := h.large q a j hq ha hpres hlarge
    change entry (linked s.mem t i f (newTableEntry f)) a j = _
    rw [T.entry_link L ⟨root, q, rfl, by omega, h.walks q a (by omega) ha⟩, if_neg, hold]
    rintro ⟨rfl, rfl⟩
    rw [hold] at habsent
    exact habsent hpres
  · intro q a hq ha
    have ha' := h.walks q a hq ha
    refine (T.walk_linked L rfl hq).trans ((if_neg ?_).trans ha')
    rintro ⟨-, rfl⟩
    rw [walk_concat, hw, Option.bind_some, L.empty] at ha'
    cases ha'
  · intro b hb
    rcases T.forest.reached_link (T.link_edit L) hb with rfl | hb
    · exact .inr hnew
    · exact htable b hb
  · exact fun v n e => (leafAt_linked T L habsent hf.not_huge_newTableEntry v n e).trans
      (h.leaves v n e)

end

/-! ## The way to the page table -/

/-- A call has come to table `t` by the slots `p`, and has opened every entry it
passed to user mode. -/
structure OnTheWay (root : U64) (s₀ : MmState) (p : List (BitVec 9)) (s : MmState) (t : U64) :
    Prop extends Kept root s₀ s where
  arrives : walk (child tableRef s.mem) root p = some t
  user : ∀ q j a, q ++ [j] <+: p → walk (child tableRef s.mem) root q = some a →
    HasFlag (entry s.mem a j) pteUser

section

variable {root : U64} {s₀ s : MmState} {p : List (BitVec 9)} {t : U64} {i : BitVec 9}

/-- The entries passed before the one at hand. -/
theorem OnTheWay.user_above (h : OnTheWay root s₀ p s t) {q : List (BitVec 9)}
    {j : BitVec 9} {a : U64}
    (hq : q ++ [j] <+: p ++ [i]) (ha : walk (child tableRef s.mem) root q = some a)
    (hat : ¬ (a = t ∧ j = i)) : HasFlag (entry s.mem a j) pteUser := by
  rcases List.prefix_concat_iff.mp hq with heq | hq
  · obtain ⟨rfl, hj⟩ := List.append_inj' heq rfl
    exact absurd ⟨Option.some.inj (ha.symm.trans h.arrives), List.head_eq_of_cons_eq hj⟩ hat
  · exact h.user q j a hq ha

/-- Going on through an entry that refers to a table. -/
theorem OnTheWay.opened (h : OnTheWay root s₀ p s t) (hp : p.length ≤ 2) {u : U64}
    (hd : child tableRef s.mem t i = some u) :
    OnTheWay root s₀ (p ++ [i]) { s with mem := openSlot s.mem t i } u := by
  have T := h.laidOut.tables
  obtain ⟨-, hwalk, -⟩ := openSlot_spec T hp h.arrives hd
  have hlen : (p ++ [i]).length ≤ 3 := length_concat_le i hp
  refine ⟨h.toKept.opened hp h.arrives hd, ?_, ?_⟩
  · rw [hwalk _ hlen, walk_concat, h.arrives, Option.bind_some, hd]
  · intro q j a hq ha
    have hqlen : q.length ≤ 3 := (length_lt_of_isPrefix_concat hq).le.trans hlen
    rw [hwalk q hqlen] at ha
    rw [entry_openSlot s.mem (T.isFrame rfl (by omega) h.arrives) (T.isFrame rfl hqlen ha)]
    split
    · exact hasFlag_or.mpr (.inr (by decide))
    · exact h.user_above hq ha ‹_›

/-- Going on through a table just made. -/
theorem OnTheWay.link (h : OnTheWay root s₀ p s t) (hp : p.length ≤ 2)
    (habsent : ¬ HasFlag (entry s.mem t i) ptePresent) {f : U64} {p' : Pmm}
    (htake : TakesPage s.pmm f p') :
    OnTheWay root s₀ (p ++ [i])
      { s with mem := linked s.mem t i f (newTableEntry f), pmm := p' } f := by
  have T := h.laidOut.tables
  have L := linkable_newTableEntry hp h.arrives habsent htake
  have hlen : (p ++ [i]).length ≤ 3 := length_concat_le i hp
  refine ⟨h.toKept.link hp h.arrives habsent htake, ?_, ?_⟩
  · exact (T.walk_linked L rfl hlen).trans (if_pos ⟨rfl, rfl⟩)
  · intro q j a hq ha
    have hshort := length_lt_of_isPrefix_concat hq
    have hne : q ≠ p ++ [i] := by
      rintro rfl
      exact Nat.lt_irrefl _ hshort
    change walk (child tableRef (linked s.mem t i f (newTableEntry f))) root q = some a at ha
    rw [T.walk_linked L rfl (by omega), if_neg (fun hc => hne hc.2)] at ha
    change HasFlag (entry (linked s.mem t i f (newTableEntry f)) a j) pteUser
    rw [T.entry_link L ⟨root, q, rfl, by omega, ha⟩]
    split
    · rw [newTableEntry_eq]
      exact hasFlag_or.mpr (.inr (by decide))
    · exact h.user_above hq ha ‹_›

/-- One level of `map_user_4k`, at an entry that is not for a large page: the call
fails with nothing lost, or goes on in the next table. -/
theorem OnTheWay.level {r : Traced MmState} (h : OnTheWay root s₀ p r.now t) (hp : p.length ≤ 2)
    (hall : Throughout (Harmless root s₀) r)
    (hplain : ¬ (HasFlag (entry r.now.mem t i) ptePresent ∧
      HasFlag (entry r.now.mem t i) pteHugePage))
    {next : Traced MmState → U64 → Bool × Traced MmState} {Post : Bool × Traced MmState → Prop}
    (hfail : ∀ q : Traced MmState, Kept root s₀ q.now → Throughout (Harmless root s₀) q →
      Post (false, q))
    (hnext : ∀ (q : Traced MmState) u, OnTheWay root s₀ (p ++ [i]) q.now u →
      Throughout (Harmless root s₀) q → Post (next q (q.now.physToVirt u))) :
    Post (withTable r (r.now.physToVirt t) (i.setWidth 64) next) := by
  have ht : IsFrame t := h.laidOut.tables.isFrame rfl (by omega) h.arrives
  -- a null pointer fails the call, whatever it stands for
  have hgo : ∀ (q : Traced MmState) u, OnTheWay root s₀ (p ++ [i]) q.now u →
      Throughout (Harmless root s₀) q → q.now.physToVirt u = r.now.physToVirt u →
      Post (if r.now.physToVirt u = 0#64 then (false, q) else next q (r.now.physToVirt u)) := by
    intro q u hq hallq hptr
    split
    · exact hfail q hq.toKept hallq
    · exact hptr ▸ hnext q u hq hallq
  rcases getOrMakeTable_cases h.laidOut.pmm ht i with
    ⟨hpres, heq⟩ | ⟨-, -, heq⟩ | ⟨habsent, f, p', q, -, htake, hq, heq⟩
  · have hd : child tableRef r.now.mem t i = some (pteToPhys (entry r.now.mem t i)) :=
      if_pos ⟨hpres, fun hl => hplain ⟨hpres, hl⟩⟩
    have hopen := h.opened hp hd
    simp only [withTable, heq]
    exact hgo (r.put _) _ hopen (hall.put hopen.toHarmless) rfl
  · simp only [withTable, heq, if_true]
    exact hfail (r.put r.now) h.toKept (hall.put h.toHarmless)
  · have hlink := h.link (i := i) hp habsent htake
    simp only [withTable, heq]
    refine hgo (q.put _) _ hlink (Throughout.put (fun x hx => ?_) hlink.toHarmless) rfl
    rcases hq x hx with hx | hx
    · exact hall x hx
    · exact h.toKept.clearing htake hx

end

/-! ## The call as a whole -/

/-- What `map_user_4k` promises for page `v` and the entry `w`, from state `s₀` on. -/
structure MapsPrecisely (s₀ : MmState) (v : BitVec 36) (w : U64) (out : Bool × Traced MmState) :
    Prop where
  cr3 : out.2.now.cr3 = s₀.cr3
  mapped : out.1 = true →
    hwLeaf out.2.now.mem s₀.cr3Root v = some (0, w) ∧
      (∃ tr, hwTranslate out.2.now.mem s₀.cr3Root v = some tr ∧ tr.user = true) ∧
      ∀ v', v' ≠ v → hwLeaf out.2.now.mem s₀.cr3Root v' = hwLeaf s₀.mem s₀.cr3Root v'
  refused : out.1 = false → ∀ v', hwLeaf out.2.now.mem s₀.cr3Root v' = hwLeaf s₀.mem s₀.cr3Root v'
  harmless : Throughout (Harmless s₀.cr3Root s₀) out.2

section

variable {s₀ : MmState} {r : Traced MmState} {t : U64}

theorem MapsPrecisely.fail {v : BitVec 36} {w : U64} (h : Kept s₀.cr3Root s₀ r.now)
    (hall : Throughout (Harmless s₀.cr3Root s₀) r) : MapsPrecisely s₀ v w (false, r) where
  cr3 := h.cr3
  mapped := fun hf => by cases hf
  refused := fun _ v' => hwLeaf_congr (h.leaves v')
  harmless := hall

/-- A walk to the page table of `v` through entries open to user mode makes the
page a user page if its own entry does. -/
theorem hwTranslate_user {m : Mem} {root w : U64} {v : BitVec 36}
    (hw : walk (child tableRef m) root (tablePath v) = some t)
    (huser : ∀ q j a, q ++ [j] <+: tablePath v → walk (child tableRef m) root q = some a →
      HasFlag (entry m a j) pteUser)
    (hleaf : entry m t (slot1 v) = w) (hp : HasFlag w ptePresent) (hu : HasFlag w pteUser) :
    ∃ tr, hwTranslate m root v = some tr ∧ tr.user = true := by
  obtain ⟨h4, hw3⟩ := walk_tableRef_cons.mp hw
  obtain ⟨h3, hw2⟩ := walk_tableRef_cons.mp hw3
  obtain ⟨h2, hw1⟩ := walk_tableRef_cons.mp hw2
  have u4 := huser [] (slot4 v) root ⟨[slot3 v, slot2 v], rfl⟩ rfl
  have u3 := huser [slot4 v] (slot3 v) _ ⟨[slot2 v], rfl⟩ (walk_tableRef_cons.mpr ⟨h4, rfl⟩)
  have u2 := huser [slot4 v, slot3 v] (slot2 v) _ ⟨[], rfl⟩
    (walk_tableRef_cons.mpr ⟨h4, walk_tableRef_cons.mpr ⟨h3, rfl⟩⟩)
  rw [← Option.some.inj hw1] at hleaf
  refine ⟨_, hwTranslate_of_entries rfl rfl rfl hleaf ⟨h4.1, h3.1, h2.1, hp⟩ ⟨h4.2, h3.2, h2.2⟩, ?_⟩
  simp [Translation.through, u4, u3, u2, hu]

/-- The last step. -/
theorem mapInPt_precise {va pa flags : U64} (hflags : HasFlag flags ptePresent)
    (h : OnTheWay s₀.cr3Root s₀ (tablePath (vpn va)) r.now t)
    (hall : Throughout (Harmless s₀.cr3Root s₀) r) :
    MapsPrecisely s₀ (vpn va) ((pa &&& pteAddrMask) ||| flags ||| pteUser)
      (mapInPt va pa flags r (r.now.physToVirt t)) := by
  have T := h.laidOut.tables
  have hlen : (tablePath (vpn va)).length ≤ 3 := Nat.le_refl 3
  have ht : IsFrame t := T.isFrame rfl hlen h.arrives
  generalize hw : (pa &&& pteAddrMask) ||| flags ||| pteUser = w
  have hpres : HasFlag w ptePresent := by
    rw [← hw, hasFlag_or, hasFlag_or]
    exact .inl (.inr hflags)
  have huser : HasFlag w pteUser := by
    rw [← hw, hasFlag_or]
    exact .inr (by decide)
  have hout : mapInPt va pa flags r (r.now.physToVirt t) =
      (true, r.put { r.now with mem := setEntry r.now.mem t (slot1 (vpn va)) w }) := by
    rw [mapInPt, ptIndex_eq, MmState.physToVirt, MmState.store_window, hw]
  obtain ⟨-, hwalk, -⟩ := T.setLeaf (i := slot1 (vpn va)) rfl rfl h.arrives w
  have hself : entry (setEntry r.now.mem t (slot1 (vpn va)) w) t (slot1 (vpn va)) = w := by
    rw [entry_setEntry _ ht ht, if_pos ⟨rfl, rfl⟩]
  have harrives : walk (child tableRef (setEntry r.now.mem t (slot1 (vpn va)) w)) s₀.cr3Root
      (tablePath (vpn va)) = some t := (hwalk _ _ rfl hlen).trans h.arrives
  rw [hout]
  refine ⟨h.cr3, fun _ => ⟨?_, ?_, fun v' hv' => ?_⟩, fun hf => absurd hf (by simp), hall.put ?_⟩
  · exact LeafAt.hwLeaf_eq ⟨t, harrives, hself, hpres, .inl rfl⟩
  · refine hwTranslate_user harrives (fun q j a hq ha => ?_) hself hpres huser
    -- the entries above are in other tables
    have hqlen : q.length ≤ 2 := Nat.le_of_lt_succ (length_lt_of_isPrefix_concat hq)
    rw [now_put, hwalk _ q rfl (by omega)] at ha
    have hne : a ≠ t := T.forest.ne_of_length_ne rfl rfl (by omega) hlen ha h.arrives
      (by rw [tablePath, List.length_cons, List.length_cons, List.length_cons]; omega)
    rw [now_put, entry_setEntry _ ht (T.isFrame rfl (by omega) ha), if_neg (fun hc => hne hc.1)]
    exact h.user q j a hq ha
  · exact hwLeaf_congr fun n e =>
      (leafAt_setEntry T h.arrives w hv' n e).trans (h.leaves v' n e)
  · refine h.toKept.store hlen h.arrives (fun hshort => ?_) w
    rw [tablePath] at hshort
    simp at hshort

/-- **`map_user_4k` is precise in the presence of large pages.** -/
theorem map_user_4k_precise (s : MmState) (h : s.LaidOut s.cr3Root) (va pa : U64) {flags : U64}
    (hflags : HasFlag flags ptePresent)
    (hpml4 : ¬ (HasFlag (entry s.mem s.cr3Root (slot4 (vpn va))) ptePresent ∧
      HasFlag (entry s.mem s.cr3Root (slot4 (vpn va))) pteHugePage)) :
    MapsPrecisely s (vpn va) ((pa &&& pteAddrMask) ||| flags ||| pteUser)
      (mapUser4k va pa flags (.start s)) := by
  have hkept : Kept s.cr3Root s s := .refl h
  have hstart : OnTheWay s.cr3Root s [] s s.cr3Root :=
    ⟨hkept, rfl, fun q j a hq => by simp at hq⟩
  have hall : Throughout (Harmless s.cr3Root s) (.start s) := by
    intro x hx
    cases List.mem_singleton.mp hx
    exact hkept.toHarmless
  -- the check for a large page comes first on the two levels that have them
  rw [mapUser4k, pml4Index_eq]
  refine hstart.level (r := .start s) (Nat.zero_le _) hall hpml4 (fun q => .fail)
    fun q pdpt h₃ hall₃ => ?_
  rw [mapInPdpt, pdptIndex_eq, MmState.physToVirt, MmState.load_window]
  split
  · exact .fail h₃.toKept hall₃
  rename_i hl₃
  refine h₃.level (Nat.le_succ 1) hall₃ (fun hl => hl₃ hl.2) (fun q => .fail)
    fun q pd h₂ hall₂ => ?_
  rw [mapInPd, pdIndex_eq, MmState.physToVirt, MmState.load_window]
  split
  · exact .fail h₂.toKept hall₂
  rename_i hl₂
  refine h₂.level (Nat.le_refl 2) hall₂ (fun hl => hl₂ hl.2) (fun q => .fail)
    fun q pt h₁ hall₁ => ?_
  exact mapInPt_precise hflags h₁ hall₁

end

/-- A page next to a 2 MiB page. -/
theorem map_user_4k_precise_beside_large_page :
    (MmState.booted twoMibMem).LaidOut (MmState.booted twoMibMem).cr3Root ∧
      MapsPrecisely (.booted twoMibMem) (vpn 0xffff800000400000)
        ((0x300000 &&& pteAddrMask) ||| 0x5 ||| pteUser)
        (mapUser4k 0xffff800000400000 0x300000 0x5 (.start (.booted twoMibMem))) := by
  have hroot : (MmState.booted twoMibMem).cr3Root = 0x1000#64 := by decide
  have hlaid : (MmState.booted twoMibMem).LaidOut (MmState.booted twoMibMem).cr3Root := by
    rw [hroot]
    exact twoMibMem_spec.1
  have hentry : entry twoMibMem 0x1000#64 (slot4 (vpn 0xffff800000400000)) = 0x2003#64 := by
    rw [twoMibMem, entry_setEntry _ (by decide) (by decide), if_neg (by decide),
      entry_linked _ (by decide) (by decide) (by decide), if_neg (by decide), if_neg (by decide),
      entry_linked _ (by decide) (by decide) (by decide), if_pos (by decide)]
  refine ⟨hlaid, map_user_4k_precise _ hlaid _ _ (by decide) ?_⟩
  rw [hroot, show (MmState.booted twoMibMem).mem = twoMibMem from rfl, hentry]
  decide

/-- A PML4 entry with its reserved bit 7 set, as for a large page. -/
def reservedMem : Mem := setEntry MmState.blank.mem 0x1000#64 0 0x2083#64

theorem reservedMem_laidOut : (MmState.booted reservedMem).LaidOut 0x1000#64 := by
  have hblank := MmState.blank_wellFormed.laidOut
  rw [show MmState.blank.kernelRoot = 0x1000#64 by decide] at hblank
  have hsame : tableRef 0x1000#64 0 0x2083#64 =
      tableRef 0x1000#64 0 (entry MmState.blank.mem 0x1000#64 0) := by
    rw [MmState.entry_blank]
    decide
  have hdepth : ([] : List (BitVec 9)).length ≤ 2 := Nat.zero_le 2
  exact ⟨(hblank.tables.retag rfl hdepth rfl hsame trivial).1, hblank.pmm⟩

/-- Below a present PML4 entry with bit 7 set and an empty table behind it, a page
is mapped and cannot be reached. -/
theorem mapUser4k_reserved_bit {r : Traced MmState} {va t f₂ f₁ : U64} {p₂ p₁ : Pmm}
    (hc : r.now.pmm.Consistent)
    (hpres : HasFlag (entry r.now.mem r.now.cr3Root (slot4 (vpn va))) ptePresent)
    (hhuge : HasFlag (entry r.now.mem r.now.cr3Root (slot4 (vpn va))) pteHugePage)
    (ht : pteToPhys (entry r.now.mem r.now.cr3Root (slot4 (vpn va))) = t)
    (hempty : entry r.now.mem t (slot3 (vpn va)) = 0#64)
    (h₂ : pmmAllocPage r.now.pmm = (f₂, p₂)) (h₁ : pmmAllocPage p₂ = (f₁, p₁))
    (hf₂ : IsFrame f₂ ∧ f₂ ≠ 0#64) (hf₁ : IsFrame f₁ ∧ f₁ ≠ 0#64)
    (hd : t ≠ f₂ ∧ f₂ ≠ f₁)
    (hapart : r.now.cr3Root ≠ t ∧ r.now.cr3Root ≠ f₂ ∧ r.now.cr3Root ≠ f₁)
    (hnull : r.now.physToVirt t ≠ 0#64 ∧ r.now.physToVirt f₂ ≠ 0#64 ∧ r.now.physToVirt f₁ ≠ 0#64)
    (pa flags : U64) :
    (mapUser4k va pa flags r).1 = true ∧
      hwLeaf (mapUser4k va pa flags r).2.now.mem r.now.cr3Root (vpn va) = none := by
  have hroot : IsFrame r.now.cr3Root := pteToPhys_isFrame _
  have hframe : IsFrame t := ht ▸ pteToPhys_isFrame _
  have e₃ : mapUser4k va pa flags r = mapInPdpt va pa flags
      (r.put { r.now with mem := openSlot r.now.mem r.now.cr3Root (slot4 (vpn va)) })
      (r.now.physToVirt t) := by
    rcases getOrMakeTable_cases hc hroot (slot4 (vpn va)) with ⟨-, heq⟩ | ⟨habsent, -⟩
      | ⟨habsent, -⟩
    · rw [ht] at heq
      rw [mapUser4k, pml4Index_eq, ← pteToPhys, withTable, heq]
      exact if_neg hnull.1
    · exact absurd hpres habsent
    · exact absurd hpres habsent
  generalize hm₃ : openSlot r.now.mem r.now.cr3Root (slot4 (vpn va)) = m₃ at e₃
  have z₃ : entry m₃ t (slot3 (vpn va)) = 0#64 := by
    rw [← hm₃, entry_openSlot _ hroot hframe, if_neg (fun h => hapart.1 h.1.symm), hempty]
  obtain ⟨q₂, e₂⟩ := mapInPdpt_link (r := r.put { r.now with mem := m₃ }) hframe z₃ h₂ hf₂
    hnull.2.1 pa flags
  simp only [now_put] at e₂
  generalize hm₂ : linked m₃ t (slot3 (vpn va)) f₂ (newTableEntry f₂) = m₂ at e₂
  have z₂ : entry m₂ f₂ (slot2 (vpn va)) = 0#64 := by
    rw [← hm₂, entry_linked_fresh _ hframe hf₂.1 hd.1]
  obtain ⟨q₁, e₁⟩ := mapInPd_link (r := q₂.put { r.now with mem := m₂, pmm := p₂ }) hf₂.1 z₂ h₁ hf₁
    hnull.2.2 pa flags
  simp only [now_put] at e₁
  generalize hm₁ : linked m₂ f₂ (slot2 (vpn va)) f₁ (newTableEntry f₁) = m₁ at e₁
  -- none of the stores below touches the PML4
  have hkeep : ∀ w, HasFlag (entry (setEntry m₁ f₁ (slot1 (vpn va)) w) r.now.cr3Root
      (slot4 (vpn va))) pteHugePage := by
    intro w
    rw [entry_setEntry _ hf₁.1 hroot, if_neg (fun h => hapart.2.2 h.1), ← hm₁,
      entry_linked _ hf₂.1 hf₁.1 hroot, if_neg (fun h => hapart.2.1 h.1), if_neg hapart.2.2, ← hm₂,
      entry_linked _ hframe hf₂.1 hroot, if_neg (fun h => hapart.1 h.1), if_neg hapart.2.1, ← hm₃,
      entry_openSlot _ hroot hroot, if_pos ⟨rfl, rfl⟩]
    exact hasFlag_or.mpr (.inl hhuge)
  rw [e₃.trans (e₂.trans e₁), mapInPt, ptIndex_eq, MmState.physToVirt]
  refine ⟨rfl, if_pos (.inr ?_)⟩
  simp only [now_put]
  exact (congrArg (fun s => HasFlag (entry (MmState.mem s) _ _) _)
    (MmState.store_window _ _ f₁ _ _)).mpr
    (hkeep _)

/-- Such an entry is followed by `map_user_4k` and not by the processor. -/
theorem map_user_4k_through_reserved_bit :
    let s := MmState.booted reservedMem
    let out := mapUser4k 0x400000 0x300000 0x5 (.start s)
    s.LaidOut s.cr3Root ∧ s.pmm.Reachable ∧ out.1 = true ∧
      hwLeaf out.2.now.mem s.cr3Root (vpn 0x400000) = none := by
  have hroot : (MmState.booted reservedMem).cr3Root = 0x1000#64 := by decide
  have hentry : entry reservedMem (MmState.booted reservedMem).cr3Root (slot4 (vpn 0x400000)) =
      0x2083#64 := by
    rw [hroot, reservedMem, entry_setEntry _ (by decide) (by decide), if_pos (by decide)]
  have hempty : entry reservedMem 0x2000#64 (slot3 (vpn 0x400000)) = 0#64 := by
    rw [reservedMem, entry_setEntry _ (by decide) (by decide), if_neg (by decide),
      MmState.entry_blank]
  obtain ⟨p₂, p₁, h₂, h₁⟩ : ∃ p₂ p₁,
      pmmAllocPage (MmState.booted reservedMem).pmm = (0x200000#64, p₂) ∧
      pmmAllocPage p₂ = (0x201000#64, p₁) := ⟨_, _, rfl, rfl⟩
  have hvirt : ∀ f, (MmState.booted reservedMem).physToVirt f = f + 0xffff800000000000#64 :=
    fun _ => rfl
  refine ⟨by rw [hroot]; exact reservedMem_laidOut, pmmInit_reachable _, ?_⟩
  refine mapUser4k_reserved_bit (r := .start (.booted reservedMem)) (t := 0x2000#64)
    (pmmInit_consistent _) ?_ ?_ ?_ hempty h₂ h₁ (by decide) (by decide) (by decide)
    (by decide) ?_ _ _
  · exact hentry.symm ▸ (by decide : HasFlag 0x2083#64 ptePresent)
  · exact hentry.symm ▸ (by decide : HasFlag 0x2083#64 pteHugePage)
  · exact hentry.symm ▸ (by decide : pteToPhys 0x2083#64 = 0x2000#64)
  · simp only [Traced.start, hvirt]
    decide

end Myria.Mm
