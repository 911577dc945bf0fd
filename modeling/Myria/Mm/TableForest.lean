import Myria.Lib.RadixForest
import Myria.Mm.PageEntry

/-! Page tables as a radix forest of depth three: PML4, PDPT, PD, and the page
tables at the bottom. `ref t i e` says which table, if any, entry `e` in slot `i`
of table `t` refers to; the users of this file choose it to follow every present
entry, or to stop at large pages, or to leave out the shared kernel half. The
edits of the mapping functions are described here once for any such choice. -/
namespace Myria.Mm

open ByteMem RadixForest

/-- The table an entry refers to when every present entry does. -/
def presentRef (e : U64) : Option U64 :=
  if HasFlag e ptePresent then some (pteToPhys e) else none

/-- Every present entry refers to a table, whatever else it says. -/
abbrev followPresent : U64 → BitVec 9 → U64 → Option U64 := fun _ _ e => presentRef e

theorem presentRef_zero : presentRef 0#64 = none := if_neg (not_hasFlag_zero _)

/-- A frame with flags, `PAGE_PRESENT` among them, refers to that frame. -/
theorem presentRef_or {f flags : U64} (hf : IsFrame f) (hflags : flags &&& pteAddrMask = 0#64)
    (hp : HasFlag flags ptePresent) : presentRef (f ||| flags) = some f := by
  rw [presentRef, if_pos (hasFlag_or.mpr (.inr hp)), hf.pteToPhys_or hflags]

section

variable (ref : U64 → BitVec 9 → U64 → Option U64)

def child (m : Mem) (t : U64) (i : BitVec 9) : Option U64 := ref t i (entry m t i)

/-- The page-table entry in slot `j` of the page table at path `p`. -/
def leaf (m : Mem) (r : U64) (p : List (BitVec 9)) (j : BitVec 9) : Option U64 :=
  (walk (child ref m) r p).map (entry m · j)

/-- The tables below the roots form a forest of frames that the allocator will
not hand out, and every entry that refers to a table satisfies `Ok`. -/
structure Tables (Root Ok Avail : U64 → Prop) (m : Mem) : Prop where
  forest : Forest (child ref m) Root 3
  frame : ∀ t, Reached (child ref m) Root 3 t → IsFrame t
  unavailable : ∀ t, Reached (child ref m) Root 3 t → ¬ Avail t
  inner : ∀ r p t i, Root r → p.length ≤ 2 → walk (child ref m) r p = some t →
    (child ref m t i).isSome → Ok (entry m t i)

/-- A frame in use for something other than the tables below the roots. -/
structure Outside (Root Avail : U64 → Prop) (m : Mem) (t : U64) : Prop where
  frame : IsFrame t
  unavailable : ¬ Avail t
  unreached : ¬ Reached (child ref m) Root 3 t

end

variable {ref : U64 → BitVec 9 → U64 → Option U64} {Root Ok Avail Avail' : U64 → Prop}
  {m m' : Mem} {r₀ t f v : U64} {p₀ : List (BitVec 9)} {i : BitVec 9}

theorem Tables.isFrame (T : Tables ref Root Ok Avail m) {r : U64} {p : List (BitVec 9)}
    (hr : Root r) (hp : p.length ≤ 3) (hw : walk (child ref m) r p = some t) : IsFrame t :=
  T.frame t ⟨r, p, hr, hp, hw⟩

/-- An available frame is not one of the tables. -/
theorem Tables.not_reached (T : Tables ref Root Ok Avail m) (hf : Avail f) :
    ¬ Reached (child ref m) Root 3 f := fun h => T.unavailable f h hf

/-! ## Linking a fresh table -/

/-- The memory after clearing frame `f` and entering it in slot `i` of `t`. -/
def linked (m : Mem) (t : U64) (i : BitVec 9) (f v : U64) : Mem :=
  setEntry (zeroed m f 4096) t i v

theorem entry_linked (m : Mem) {t f t' : U64} (ht : IsFrame t) (hf : IsFrame f)
    (ht' : IsFrame t') (i j : BitVec 9) (v : U64) :
    entry (linked m t i f v) t' j =
      if t' = t ∧ j = i then v else if t' = f then 0#64 else entry m t' j := by
  rw [linked, entry_setEntry _ ht ht', entry_zeroed m hf ht']

theorem entry_linked_fresh (m : Mem) {t f : U64} (ht : IsFrame t) (hf : IsFrame f) (hne : t ≠ f)
    (i j : BitVec 9) (v : U64) : entry (linked m t i f v) f j = 0#64 := by
  rw [entry_linked m ht hf hf, if_neg (fun h => hne h.1.symm), if_pos rfl]

/-- What is needed to link the free frame `f` in the empty slot `i` of table
`t`, by an entry `v`. -/
structure Linkable (ref : U64 → BitVec 9 → U64 → Option U64) (Root Ok Avail Avail' : U64 → Prop)
    (m : Mem) (r₀ : U64) (p₀ : List (BitVec 9)) (t : U64) (i : BitVec 9) (f v : U64) : Prop where
  root : Root r₀
  depth : p₀.length ≤ 2
  walks : walk (child ref m) r₀ p₀ = some t
  empty : child ref m t i = none
  frame : IsFrame f
  available : Avail f
  taken : ¬ Avail' f
  fewer : ∀ b, Avail' b → Avail b
  refers : ref t i v = some f
  ok : Ok v
  /-- A cleared entry refers to nothing. -/
  zero : ∀ t j, ref t j 0#64 = none

section Link

variable (T : Tables ref Root Ok Avail m) (L : Linkable ref Root Ok Avail Avail' m r₀ p₀ t i f v)
include T L

theorem Tables.parent_isFrame : IsFrame t :=
  T.isFrame L.root (by have := L.depth; omega) L.walks

theorem Tables.parent_ne : t ≠ f := by
  rintro rfl
  exact T.not_reached L.available ⟨r₀, p₀, L.root, by have := L.depth; omega, L.walks⟩

theorem Tables.link_edit :
    Link (child ref m) (child ref (linked m t i f v)) Root 3 r₀ p₀ t i f where
  root := L.root
  depth := by have := L.depth; omega
  walks := L.walks
  empty := L.empty
  fresh := T.not_reached L.available
  agree := by
    intro s j hs hne
    have hsf : s ≠ f := fun h => T.not_reached L.available (h ▸ hs)
    rw [child, child, entry_linked m (T.parent_isFrame L) L.frame (T.frame s hs),
      if_neg hne, if_neg hsf]
  links := by
    have ht := T.parent_isFrame L
    rw [child, entry_linked m ht L.frame ht, if_pos ⟨rfl, rfl⟩, L.refers]
  leaf := by
    intro j
    rw [child, entry_linked_fresh m (T.parent_isFrame L) L.frame (T.parent_ne L), L.zero]

/-- The entries of the tables after the link. -/
theorem Tables.entry_link {s : U64} (hs : Reached (child ref m) Root 3 s) (j : BitVec 9) :
    entry (linked m t i f v) s j = if s = t ∧ j = i then v else entry m s j := by
  have hsf : s ≠ f := fun h => T.not_reached L.available (h ▸ hs)
  rw [entry_linked m (T.parent_isFrame L) L.frame (T.frame s hs), if_neg hsf]

theorem Tables.walk_linked {r : U64} (hr : Root r) {p : List (BitVec 9)} (hp : p.length ≤ 3) :
    walk (child ref (linked m t i f v)) r p =
      if r = r₀ ∧ p = p₀ ++ [i] then some f else walk (child ref m) r p :=
  T.forest.walk_link (T.link_edit L) hr p hp

/-- Linking a fresh table keeps the tables a forest of unavailable frames. -/
theorem Tables.link : Tables ref Root Ok Avail' (linked m t i f v) := by
  have ht := T.parent_isFrame L
  refine ⟨T.forest.link (T.link_edit L), ?_, ?_, ?_⟩
  · intro s hs
    rcases T.forest.reached_link (T.link_edit L) hs with rfl | hs
    · exact L.frame
    · exact T.frame s hs
  · intro s hs
    rcases T.forest.reached_link (T.link_edit L) hs with rfl | hs
    · exact L.taken
    · exact fun h => T.unavailable s hs (L.fewer s h)
  · intro r p s j hr hp hw hsome
    rw [T.walk_linked L hr (by omega)] at hw
    split at hw
    · cases Option.some.inj hw
      rw [(T.link_edit L).leaf j] at hsome
      cases hsome
    · have hs : Reached (child ref m) Root 3 s := ⟨r, p, hr, by omega, hw⟩
      have hsf : s ≠ f := fun h => T.not_reached L.available (h ▸ hs)
      rw [entry_linked m ht L.frame (T.frame s hs)]
      by_cases hat : s = t ∧ j = i
      · rw [if_pos hat]
        exact L.ok
      · rw [(T.link_edit L).agree s j hs hat] at hsome
        rw [if_neg hat, if_neg hsf]
        exact T.inner r p s j hr hp hw hsome

/-- Frames in use for something else are neither touched nor taken in. -/
theorem Tables.link_outside {t' : U64} (O : Outside ref Root Avail m t') :
    Outside ref Root Avail' (linked m t i f v) t' ∧
      ∀ j, entry (linked m t i f v) t' j = entry m t' j := by
  have hparent : t' ≠ t := by
    rintro rfl
    exact O.unreached ⟨r₀, p₀, L.root, by have := L.depth; omega, L.walks⟩
  have hfresh : t' ≠ f := by
    rintro rfl
    exact O.unavailable L.available
  refine ⟨⟨O.frame, fun h => O.unavailable (L.fewer t' h), fun h => ?_⟩, fun j => ?_⟩
  · exact (T.forest.reached_link (T.link_edit L) h).elim hfresh O.unreached
  · rw [entry_linked m (T.parent_isFrame L) L.frame O.frame, if_neg (fun h => hparent h.1),
      if_neg hfresh]

/-- No page-table entry changes, except that the new table, if it is a page
table, brings cleared ones where nothing was reached before. -/
theorem Tables.leaf_linked {r : U64} (hr : Root r) {p : List (BitVec 9)} (hp : p.length = 3)
    (j : BitVec 9) :
    leaf ref (linked m t i f v) r p j =
      if r = r₀ ∧ p = p₀ ++ [i] then some 0#64 else leaf ref m r p j := by
  have ht := T.parent_isFrame L
  have hdepth := L.depth
  rw [leaf, T.walk_linked L hr (by omega)]
  split
  · rw [Option.map_some, entry_linked_fresh m ht L.frame (T.parent_ne L)]
  · rw [leaf]
    cases hw : walk (child ref m) r p with
    | none => rw [Option.map_none, Option.map_none]
    | some s =>
      have hs : Reached (child ref m) Root 3 s := ⟨r, p, hr, by omega, hw⟩
      have hsf : s ≠ f := fun h => T.not_reached L.available (h ▸ hs)
      -- `t` lies above the page tables, `s` is one of them
      have hst : s ≠ t :=
        T.forest.ne_of_length_ne hr L.root (by omega) (by omega) hw L.walks (by omega)
      rw [Option.map_some, Option.map_some, entry_linked m ht L.frame (T.frame s hs),
        if_neg (fun h => hst h.1), if_neg hsf]

/-- What a page-table entry is read as does not change either, as long as a
cleared entry is read like an absent one. -/
theorem Tables.bind_leaf_linked {β : Type} {g : U64 → Option β} (hg : g 0#64 = none) {r : U64}
    (hr : Root r) {p : List (BitVec 9)} (hp : p.length = 3) (j : BitVec 9) :
    (leaf ref (linked m t i f v) r p j).bind g = (leaf ref m r p j).bind g := by
  rw [T.leaf_linked L hr hp]
  split
  · rename_i h
    have hnone : leaf ref m r p j = none := by
      rw [leaf, h.1, h.2, walk_concat, L.walks, Option.bind_some, L.empty, Option.map_none]
    rw [hnone, Option.bind_some, hg, Option.bind_none]
  · rfl

end Link

/-! ## Changing an entry in place -/

/-- An edit that changes no walk keeps the tables, as long as the entries that
refer to a table stay acceptable. -/
theorem Tables.of_walk_eq (T : Tables ref Root Ok Avail m)
    (hwalk : ∀ r p, Root r → p.length ≤ 3 → walk (child ref m') r p = walk (child ref m) r p)
    (hinner : ∀ r p s j, Root r → p.length ≤ 2 → walk (child ref m) r p = some s →
      (child ref m' s j).isSome → Ok (entry m' s j)) :
    Tables ref Root Ok Avail m' := by
  have hreach : ∀ s, Reached (child ref m') Root 3 s → Reached (child ref m) Root 3 s := by
    rintro s ⟨r, p, hr, hp, hw⟩
    exact ⟨r, p, hr, hp, (hwalk r p hr hp).symm.trans hw⟩
  refine ⟨T.forest.congr hwalk, fun s hs => T.frame s (hreach s hs),
    fun s hs => T.unavailable s (hreach s hs), ?_⟩
  intro r p s j hr hp hw hsome
  rw [hwalk r p hr (by omega)] at hw
  exact hinner r p s j hr hp hw hsome

/-- Edits elsewhere in memory: while the entries of all tables stay as they are,
so do the tables, the walks and the page-table entries. -/
theorem Tables.of_entry_eq (T : Tables ref Root Ok Avail m)
    (hkeep : ∀ s j, Reached (child ref m) Root 3 s → entry m' s j = entry m s j)
    (htaken : ∀ s, Reached (child ref m) Root 3 s → ¬ Avail' s) :
    Tables ref Root Ok Avail' m' ∧
      (∀ s, Reached (child ref m') Root 3 s ↔ Reached (child ref m) Root 3 s) ∧
      ∀ r p j, Root r → p.length ≤ 3 → leaf ref m' r p j = leaf ref m r p j := by
  have hchild : ∀ s j, Reached (child ref m) Root 3 s → child ref m' s j = child ref m s j :=
    fun s j hs => congrArg (ref s j) (hkeep s j hs)
  have hwalk : ∀ r p, Root r → p.length ≤ 3 → walk (child ref m') r p = walk (child ref m) r p :=
    fun r p hr hp => walk_reached_congr hchild hr p hp
  have T' : Tables ref Root Ok Avail m' := by
    apply T.of_walk_eq hwalk
    intro r p s j hr hp hw hsome
    have hs : Reached (child ref m) Root 3 s := ⟨r, p, hr, by omega, hw⟩
    rw [hchild s j hs] at hsome
    rw [hkeep s j hs]
    exact T.inner r p s j hr hp hw hsome
  have hreach : ∀ s, Reached (child ref m') Root 3 s ↔ Reached (child ref m) Root 3 s := by
    intro s
    constructor
    · rintro ⟨r, p, hr, hp, hw⟩
      exact ⟨r, p, hr, hp, (hwalk r p hr hp).symm.trans hw⟩
    · rintro ⟨r, p, hr, hp, hw⟩
      exact ⟨r, p, hr, hp, (hwalk r p hr hp).trans hw⟩
  refine ⟨⟨T'.forest, T'.frame, fun s hs => htaken s ((hreach s).mp hs), T'.inner⟩, hreach, ?_⟩
  intro r p j hr hp
  rw [leaf, leaf, hwalk r p hr hp]
  cases hw : walk (child ref m) r p with
  | none => rw [Option.map_none, Option.map_none]
  | some s => exact congrArg some (hkeep s j ⟨r, p, hr, hp, hw⟩)

/-- Rewriting an entry above the page tables so that it refers to the same
table changes no walk and no page-table entry. -/
theorem Tables.retag (T : Tables ref Root Ok Avail m) (hr₀ : Root r₀) (hp₀ : p₀.length ≤ 2)
    (hw₀ : walk (child ref m) r₀ p₀ = some t) (hsame : ref t i v = ref t i (entry m t i))
    (hok : Ok v) :
    Tables ref Root Ok Avail (setEntry m t i v) ∧
      (∀ r p, Root r → p.length ≤ 3 →
        walk (child ref (setEntry m t i v)) r p = walk (child ref m) r p) ∧
      ∀ r p j, Root r → p.length = 3 → leaf ref (setEntry m t i v) r p j = leaf ref m r p j := by
  have ht : IsFrame t := T.isFrame hr₀ (by omega) hw₀
  have hchild : ∀ s j, Reached (child ref m) Root 3 s →
      child ref (setEntry m t i v) s j = child ref m s j := by
    intro s j hs
    rw [child, child, entry_setEntry m ht (T.frame s hs)]
    split
    · rename_i h
      rw [h.1, h.2, hsame]
    · rfl
  have hwalk : ∀ r p, Root r → p.length ≤ 3 →
      walk (child ref (setEntry m t i v)) r p = walk (child ref m) r p :=
    fun r p hr hp => walk_reached_congr hchild hr p hp
  refine ⟨T.of_walk_eq hwalk ?_, hwalk, ?_⟩
  · intro r p s j hr hp hw hsome
    have hs : Reached (child ref m) Root 3 s := ⟨r, p, hr, by omega, hw⟩
    rw [entry_setEntry m ht (T.frame s hs)]
    split
    · exact hok
    · rw [hchild s j hs] at hsome
      exact T.inner r p s j hr hp hw hsome
  · intro r p j hr hp
    rw [leaf, leaf, hwalk r p hr (by omega)]
    cases hw : walk (child ref m) r p with
    | none => rw [Option.map_none, Option.map_none]
    | some s =>
      have hst : s ≠ t :=
        T.forest.ne_of_length_ne hr hr₀ (by omega) (by omega) hw hw₀ (by omega)
      rw [Option.map_some, Option.map_some,
        entry_setEntry m ht (T.isFrame hr (by omega) hw), if_neg (fun h => hst h.1)]

/-- Writing an entry of a page table changes that entry only. -/
theorem Tables.setLeaf (T : Tables ref Root Ok Avail m) (hr₀ : Root r₀) (hp₀ : p₀.length = 3)
    (hw₀ : walk (child ref m) r₀ p₀ = some t) (v : U64) :
    Tables ref Root Ok Avail (setEntry m t i v) ∧
      (∀ r p, Root r → p.length ≤ 3 →
        walk (child ref (setEntry m t i v)) r p = walk (child ref m) r p) ∧
      ∀ r p j, Root r → p.length = 3 → leaf ref (setEntry m t i v) r p j =
        if r = r₀ ∧ p = p₀ ∧ j = i then some v else leaf ref m r p j := by
  have ht : IsFrame t := T.isFrame hr₀ (by omega) hw₀
  have hentry : ∀ s j, Reached (child ref m) Root 3 s → s ≠ t →
      entry (setEntry m t i v) s j = entry m s j := by
    intro s j hs hst
    rw [entry_setEntry m ht (T.frame s hs), if_neg (fun h => hst h.1)]
  have hwalk : ∀ r p, Root r → p.length ≤ 3 →
      walk (child ref (setEntry m t i v)) r p = walk (child ref m) r p :=
    fun r p hr hp => T.forest.walk_bottom hr₀ hp₀ hw₀
      (fun s j hs hst => congrArg (ref s j) (hentry s j hs hst)) hr p hp
  refine ⟨T.of_walk_eq hwalk ?_, hwalk, ?_⟩
  · intro r p s j hr hp hw hsome
    have hs : Reached (child ref m) Root 3 s := ⟨r, p, hr, by omega, hw⟩
    have hst : s ≠ t :=
      T.forest.ne_of_length_ne hr hr₀ (by omega) (by omega) hw hw₀ (by omega)
    rw [child, hentry s j hs hst] at hsome
    rw [hentry s j hs hst]
    exact T.inner r p s j hr hp hw hsome
  · intro r p j hr hp
    rw [leaf, leaf, hwalk r p hr (by omega)]
    cases hw : walk (child ref m) r p with
    | none =>
      have hne : ¬ (r = r₀ ∧ p = p₀ ∧ j = i) := by
        rintro ⟨rfl, rfl, -⟩
        rw [hw₀] at hw
        cases hw
      rw [if_neg hne, Option.map_none, Option.map_none]
    | some s =>
      rw [Option.map_some, Option.map_some, entry_setEntry m ht (T.isFrame hr (by omega) hw)]
      by_cases hat : s = t ∧ j = i
      · obtain ⟨rfl, rfl⟩ := hat
        obtain ⟨rfl, rfl⟩ := T.forest r r₀ p p₀ s hr hr₀ (by omega) (by omega) hw hw₀
        rw [if_pos ⟨rfl, rfl⟩, if_pos ⟨rfl, rfl, rfl⟩]
      · have hne : ¬ (r = r₀ ∧ p = p₀ ∧ j = i) := by
          rintro ⟨rfl, rfl, rfl⟩
          exact hat ⟨Option.some.inj (hw.symm.trans hw₀), rfl⟩
        rw [if_neg hat, if_neg hne]

/-- An entry changed so that all walks stay the same leaves other frames alone. -/
theorem Tables.setEntry_outside (T : Tables ref Root Ok Avail m) (hr₀ : Root r₀)
    (hp₀ : p₀.length ≤ 3) (hw₀ : walk (child ref m) r₀ p₀ = some t)
    (hwalk : ∀ r p, Root r → p.length ≤ 3 →
      walk (child ref (setEntry m t i v)) r p = walk (child ref m) r p)
    {t' : U64} (O : Outside ref Root Avail m t') :
    Outside ref Root Avail (setEntry m t i v) t' ∧
      ∀ j, entry (setEntry m t i v) t' j = entry m t' j := by
  have hne : t' ≠ t := by
    rintro rfl
    exact O.unreached ⟨r₀, p₀, hr₀, hp₀, hw₀⟩
  refine ⟨⟨O.frame, O.unavailable, ?_⟩, fun j => ?_⟩
  · rintro ⟨r, p, hr, hp, hw⟩
    exact O.unreached ⟨r, p, hr, hp, (hwalk r p hr hp).symm.trans hw⟩
  · rw [entry_setEntry m (T.isFrame hr₀ hp₀ hw₀) O.frame, if_neg (fun h => hne h.1)]

/-! ## A new root -/

section AddRoot

variable {ref' : U64 → BitVec 9 → U64 → Option U64}
  (T : Tables ref Root Ok Avail m) (N : Fresh (child ref m) (child ref' m') Root 3 f)
  (hkeep : ∀ t j, Reached (child ref m) Root 3 t → entry m' t j = entry m t j)
include T N hkeep

theorem Tables.addRoot (hf : IsFrame f) (htaken : ¬ Avail' f)
    (hfewer : ∀ b, Avail' b → Avail b) :
    Tables ref' (fun r => r = f ∨ Root r) Ok Avail' m' where
  forest := T.forest.addRoot N
  frame := by
    intro t ht
    rcases reached_addRoot N ht with rfl | ht
    · exact hf
    · exact T.frame t ht
  unavailable := by
    intro t ht
    rcases reached_addRoot N ht with rfl | ht
    · exact htaken
    · exact fun h => T.unavailable t ht (hfewer t h)
  inner := by
    rintro r p t i (rfl | hr) hp hw hsome
    · obtain ⟨-, rfl⟩ := walk_empty N.leaf hw
      rw [N.leaf i] at hsome
      cases hsome
    · rw [walk_reached_congr N.agree hr p (by omega)] at hw
      have ht : Reached (child ref m) Root 3 t := ⟨r, p, hr, by omega, hw⟩
      rw [N.agree t i ht] at hsome
      rw [hkeep t i ht]
      exact T.inner r p t i hr hp hw hsome

omit T in
theorem leaf_addRoot {r : U64} (hr : Root r) {p : List (BitVec 9)} (hp : p.length = 3)
    (j : BitVec 9) : leaf ref' m' r p j = leaf ref m r p j := by
  rw [leaf, leaf, walk_reached_congr N.agree hr p (by omega)]
  cases hw : walk (child ref m) r p with
  | none => rw [Option.map_none, Option.map_none]
  | some t => rw [Option.map_some, Option.map_some, hkeep t j ⟨r, p, hr, by omega, hw⟩]

end AddRoot

end Myria.Mm
