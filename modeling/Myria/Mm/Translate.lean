import Myria.Mm.TableForest

/-! Address translation as the processor does it: four levels, large pages at
the PDPT and PD levels, and access rights combined over every entry on the way. -/
namespace Myria.Mm

open ByteMem RadixForest

structure Translation where
  frame : U64
  user : Bool
  writable : Bool
  noExecute : Bool
deriving DecidableEq, Repr

/-- The rights that the entries `es` of a walk grant together. -/
def Translation.through (es : List U64) (frame : U64) : Translation where
  frame := frame
  user := es.all (HasFlag · pteUser)
  writable := es.all (HasFlag · pteWritable)
  noExecute := es.any (HasFlag · pteNoExecute)

/-- The 4 KiB frame of page `v` inside the large page of `2^n` pages at `e`. -/
def largeFrame (e : U64) (v : BitVec 36) (n : Nat) : U64 :=
  (pteToPhys e >>> (12 + n)) <<< (12 + n) ||| ((v.setWidth n).setWidth 64) <<< 12

def hwTranslate (m : Mem) (root : U64) (v : BitVec 36) : Option Translation :=
  let e4 := entry m root (slot4 v)
  -- bit 7 is reserved in a PML4 entry
  if ¬ HasFlag e4 ptePresent ∨ HasFlag e4 pteHugePage then none
  else
    let e3 := entry m (pteToPhys e4) (slot3 v)
    if ¬ HasFlag e3 ptePresent then none
    else if HasFlag e3 pteHugePage then some (.through [e4, e3] (largeFrame e3 v 18))
    else
      let e2 := entry m (pteToPhys e3) (slot2 v)
      if ¬ HasFlag e2 ptePresent then none
      else if HasFlag e2 pteHugePage then some (.through [e4, e3, e2] (largeFrame e2 v 9))
      else
        let e1 := entry m (pteToPhys e2) (slot1 v)
        if ¬ HasFlag e1 ptePresent then none
        else some (.through [e4, e3, e2, e1] (pteToPhys e1))

theorem hwTranslate_of_absent {m : Mem} {root : U64} {v : BitVec 36}
    (h : ¬ HasFlag (entry m root (slot4 v)) ptePresent) : hwTranslate m root v = none :=
  if_pos (.inl h)

/-- Four present entries that lead to a 4 KiB page. -/
theorem hwTranslate_of_entries {m : Mem} {root e₄ e₃ e₂ e₁ : U64} {v : BitVec 36}
    (h₄ : entry m root (slot4 v) = e₄) (h₃ : entry m (pteToPhys e₄) (slot3 v) = e₃)
    (h₂ : entry m (pteToPhys e₃) (slot2 v) = e₂) (h₁ : entry m (pteToPhys e₂) (slot1 v) = e₁)
    (hp : HasFlag e₄ ptePresent ∧ HasFlag e₃ ptePresent ∧ HasFlag e₂ ptePresent ∧
      HasFlag e₁ ptePresent)
    (hh : ¬ HasFlag e₄ pteHugePage ∧ ¬ HasFlag e₃ pteHugePage ∧ ¬ HasFlag e₂ pteHugePage) :
    hwTranslate m root v = some (.through [e₄, e₃, e₂, e₁] (pteToPhys e₁)) := by
  obtain ⟨hp₄, hp₃, hp₂, hp₁⟩ := hp
  obtain ⟨hh₄, hh₃, hh₂⟩ := hh
  simp only [hwTranslate, h₄, h₃, h₂, h₁]
  rw [if_neg (by tauto), if_neg (not_not.mpr hp₃), if_neg hh₃, if_neg (not_not.mpr hp₂), if_neg hh₂,
    if_neg (not_not.mpr hp₁)]

/-- A page just mapped below an empty PML4 slot, by way of three tables that were
linked one below the other. -/
theorem hwTranslate_linked {m : Mem} {a f₃ f₂ f₁ v₃ v₂ v₁ w : U64} {v : BitVec 36}
    (ha : IsFrame a) (h₃ : pteToPhys v₃ = f₃) (h₂ : pteToPhys v₂ = f₂) (h₁ : pteToPhys v₁ = f₁)
    (hroot : a ≠ f₃ ∧ a ≠ f₂ ∧ a ≠ f₁) (hd : f₃ ≠ f₂ ∧ f₃ ≠ f₁ ∧ f₂ ≠ f₁)
    (hp : HasFlag v₃ ptePresent ∧ HasFlag v₂ ptePresent ∧ HasFlag v₁ ptePresent ∧
      HasFlag w ptePresent)
    (hh : ¬ HasFlag v₃ pteHugePage ∧ ¬ HasFlag v₂ pteHugePage ∧ ¬ HasFlag v₁ pteHugePage) :
    hwTranslate (setEntry (linked (linked (linked m a (slot4 v) f₃ v₃) f₃ (slot3 v) f₂ v₂)
      f₂ (slot2 v) f₁ v₁) f₁ (slot1 v) w) a v = some (.through [v₃, v₂, v₁, w] (pteToPhys w)) := by
  obtain ⟨ha₃, ha₂, ha₁⟩ := hroot
  obtain ⟨h₃₂, h₃₁, h₂₁⟩ := hd
  have hf₃ : IsFrame f₃ := h₃ ▸ pteToPhys_isFrame v₃
  have hf₂ : IsFrame f₂ := h₂ ▸ pteToPhys_isFrame v₂
  have hf₁ : IsFrame f₁ := h₁ ▸ pteToPhys_isFrame v₁
  -- each entry was written once and not touched by the later steps
  refine hwTranslate_of_entries ?_ ?_ ?_ ?_ hp hh
  · rw [entry_setEntry _ hf₁ ha, entry_linked _ hf₂ hf₁ ha, entry_linked _ hf₃ hf₂ ha,
      entry_linked _ ha hf₃ ha]
    simp only [ha₁, ha₂, ha₃, false_and, if_false, and_self, if_true]
  · rw [h₃, entry_setEntry _ hf₁ hf₃, entry_linked _ hf₂ hf₁ hf₃, entry_linked _ hf₃ hf₂ hf₃]
    simp only [h₃₁, h₃₂, false_and, if_false, and_self, if_true]
  · rw [h₂, entry_setEntry _ hf₁ hf₂, entry_linked _ hf₂ hf₁ hf₂]
    simp only [h₂₁, false_and, if_false, and_self, if_true]
  · rw [h₁, entry_setEntry _ hf₁ hf₁, if_pos ⟨rfl, rfl⟩]

/-- The table an entry refers to when large pages do not count. -/
def tableRef (_t : U64) (_i : BitVec 9) (e : U64) : Option U64 :=
  if HasFlag e ptePresent ∧ ¬ HasFlag e pteHugePage then some (pteToPhys e) else none

theorem tableRef_zero (t : U64) (i : BitVec 9) : tableRef t i 0#64 = none :=
  if_neg fun h => not_hasFlag_zero _ h.1

/-- Translation looks at the tables on its way only. -/
theorem hwTranslate_congr {m m' : Mem} {r r' : U64} {v : BitVec 36}
    (hroot : entry m' r' (slot4 v) = entry m r (slot4 v))
    (h : ∀ p t, p.length ≤ 2 → walk (child tableRef m) r (slot4 v :: p) = some t →
      ∀ j, entry m' t j = entry m t j) :
    hwTranslate m' r' v = hwTranslate m r v := by
  simp only [hwTranslate, hroot]
  split
  · rfl
  rename_i h4
  have hw4 : walk (child tableRef m) r [slot4 v] = some (pteToPhys (entry m r (slot4 v))) := by
    rw [walk, child, tableRef, if_pos (by tauto)]
    rfl
  rw [h [] _ (by decide) hw4]
  split
  · rfl
  split
  · rfl
  rename_i h3 h3'
  have hw3 := walk_concat (child tableRef m) r [slot4 v] (slot3 v)
  rw [hw4, Option.bind_some, child, tableRef, if_pos ⟨not_not.mp h3, h3'⟩] at hw3
  rw [h [slot3 v] _ (Nat.le_succ 1) hw3]
  split
  · rfl
  split
  · rfl
  rename_i h2 h2'
  have hw2 := walk_concat (child tableRef m) r [slot4 v, slot3 v] (slot2 v)
  rw [show [slot4 v, slot3 v] = [slot4 v] ++ [slot3 v] from rfl, hw3, Option.bind_some, child,
    tableRef, if_pos ⟨not_not.mp h2, h2'⟩] at hw2
  rw [h [slot3 v, slot2 v] _ (Nat.le_refl 2) hw2]

/-- What a page-table entry grants when every entry above it grants all. -/
def decodePte (e : U64) : Option Translation :=
  if HasFlag e ptePresent then some (.through [e] (pteToPhys e)) else none

/-- An entry above the page tables that hands every right down: present,
writable, user, neither a large page nor no-execute. -/
structure UserEntry (e : U64) : Prop where
  present : HasFlag e ptePresent
  writable : HasFlag e pteWritable
  user : HasFlag e pteUser
  notHuge : ¬ HasFlag e pteHugePage
  notNoExecute : ¬ HasFlag e pteNoExecute

theorem Translation.through_cons {e : U64} (h : UserEntry e) (es : List U64) (frame : U64) :
    through (e :: es) frame = through es frame := by
  simp [through, h.user, h.writable, h.notNoExecute]

/-- When the present entries above the page table of `v` all hand their rights
down, the translation of `v` is its page-table entry. -/
theorem hwTranslate_of_userEntry {m : Mem} {r : U64} {v : BitVec 36}
    (h : ∀ p t i, p ++ [i] <+: tablePath v → walk (child followPresent m) r p = some t →
      HasFlag (entry m t i) ptePresent → UserEntry (entry m t i)) :
    hwTranslate m r v = (leaf followPresent m r (tablePath v) (slot1 v)).bind decodePte := by
  simp only [hwTranslate, leaf, tablePath, walk, child, presentRef]
  -- level by level: an absent entry ends both sides, a present one is followed by both
  by_cases h4 : HasFlag (entry m r (slot4 v)) ptePresent
  swap
  · simp [h4]
  have u4 := h [] r (slot4 v) ⟨[slot3 v, slot2 v], rfl⟩ rfl h4
  have hw4 : walk (child followPresent m) r [slot4 v] = some (pteToPhys (entry m r (slot4 v))) := by
    simp [walk, child, presentRef, h4]
  rw [if_neg (by simp [h4, u4.notHuge]), if_pos h4, Option.bind_some]
  generalize pteToPhys (entry m r (slot4 v)) = t3 at *
  by_cases h3 : HasFlag (entry m t3 (slot3 v)) ptePresent
  swap
  · simp [h3]
  have u3 := h [slot4 v] t3 (slot3 v) ⟨[slot2 v], rfl⟩ hw4 h3
  have hw3 : walk (child followPresent m) r [slot4 v, slot3 v] =
      some (pteToPhys (entry m t3 (slot3 v))) := by
    rw [show [slot4 v, slot3 v] = [slot4 v] ++ [slot3 v] from rfl, walk_concat, hw4]
    exact if_pos h3
  rw [if_neg (not_not.mpr h3), if_neg u3.notHuge, if_pos h3, Option.bind_some]
  generalize pteToPhys (entry m t3 (slot3 v)) = t2 at *
  by_cases h2 : HasFlag (entry m t2 (slot2 v)) ptePresent
  swap
  · simp [h2]
  have u2 := h [slot4 v, slot3 v] t2 (slot2 v) ⟨[], rfl⟩ hw3 h2
  rw [if_neg (not_not.mpr h2), if_neg u2.notHuge, if_pos h2, Option.bind_some, Option.map_some,
    Option.bind_some, decodePte, Translation.through_cons u4, Translation.through_cons u3,
    Translation.through_cons u2, ite_not]

/-! ## What is translated to are frames -/

/-- The page in the middle of a large one: the address bits above come from the entry. -/
theorem largeFrame_toNat (e : U64) (v : BitVec 36) {n : Nat} (hn : n ≤ 18) :
    (largeFrame e v n).toNat =
      (pteToPhys e).toNat / 2 ^ (12 + n) * 2 ^ (12 + n) + v.toNat % 2 ^ n * 2 ^ 12 := by
  have hlow : v.toNat % 2 ^ n < 2 ^ n := Nat.mod_lt _ (Nat.two_pow_pos n)
  have hpow : 2 ^ (12 + n) = 2 ^ n * 2 ^ 12 := by rw [Nat.add_comm, Nat.pow_add]
  have hpage : v.toNat % 2 ^ n * 2 ^ 12 < 2 ^ (12 + n) := by
    rw [hpow]
    exact Nat.mul_lt_mul_of_pos_right hlow (by decide)
  have hn' : 2 ^ (12 + n) ≤ 2 ^ 30 := Nat.pow_le_pow_right (by decide) (by omega)
  have hoff : (((v.setWidth n).setWidth 64) <<< 12).toNat = v.toNat % 2 ^ n * 2 ^ 12 := by
    rw [BitVec.toNat_shiftLeft, BitVec.toNat_setWidth, BitVec.toNat_setWidth, Nat.shiftLeft_eq,
      Nat.mod_eq_of_lt (show v.toNat % 2 ^ n < 2 ^ 64 by omega)]
    exact Nat.mod_eq_of_lt (by omega)
  rw [largeFrame, BitVec.toNat_or, BitField.shift_down_up_toNat, hoff, Nat.mul_comm (_ / _),
    Nat.two_pow_add_eq_or_of_lt hpage]

theorem isFrame_largeFrame (e : U64) (v : BitVec 36) {n : Nat} (hn : n ≤ 18) :
    IsFrame (largeFrame e v n) := by
  obtain ⟨-, hlt⟩ := (isFrame_iff _).mp (pteToPhys_isFrame e)
  have hpow : 2 ^ (12 + n) = 2 ^ n * 2 ^ 12 := by rw [Nat.add_comm, Nat.pow_add]
  have hlow : v.toNat % 2 ^ n + 1 ≤ 2 ^ n := Nat.mod_lt _ (Nat.two_pow_pos n)
  have hsplit : 2 ^ 52 = 2 ^ (40 - n) * 2 ^ (12 + n) := by
    rw [← Nat.pow_add]
    congr 1
    omega
  have hblock : (pteToPhys e).toNat / 2 ^ (12 + n) + 1 ≤ 2 ^ (40 - n) :=
    Nat.div_lt_of_lt_mul (by rw [Nat.mul_comm, ← hsplit]; exact hlt)
  have hend := Nat.mul_le_mul_right (2 ^ (12 + n)) hblock
  have hoff := Nat.mul_le_mul_right (2 ^ 12) hlow
  rw [isFrame_iff, largeFrame_toNat e v hn]
  constructor
  · rw [hpow, ← Nat.mul_assoc, ← Nat.add_mul]
    exact Nat.mul_mod_left _ _
  · rw [Nat.add_mul, Nat.one_mul] at hend hoff
    omega

/-- What a page is translated to is a frame. -/
theorem isFrame_of_hwTranslate {m : Mem} {root : U64} {v : BitVec 36} {tr : Translation}
    (h : hwTranslate m root v = some tr) : IsFrame tr.frame := by
  simp only [hwTranslate] at h
  split at h
  · cases h
  split at h
  · cases h
  split at h
  · cases h
    exact isFrame_largeFrame _ _ (by decide)
  split at h
  · cases h
  split at h
  · cases h
    exact isFrame_largeFrame _ _ (by decide)
  split at h
  · cases h
  · cases h
    exact pteToPhys_isFrame _

end Myria.Mm
