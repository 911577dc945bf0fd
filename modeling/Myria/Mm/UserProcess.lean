import Myria.Mm.FrameEffect
import Myria.Mm.PmmAccounting
import Myria.Mm.UserIsolation

/-! The first user process: `create_user_process` of `user_as.c` builds an
address space with a code page and two stack pages. Frames are allocated, cleared,
filled and mapped in turns; what is tracked from step to step is the address
space and what each of the process's frames holds. -/
namespace Myria.Mm

open ByteMem RadixForest

/-- The loop `for (i = 0; i < payload_size && i < 4096; i++)
code_page[i] = user_payload_start[i]`. -/
def copyPayload (s : MmState) (codePage : U64) (payload : List (BitVec 8)) : MmState :=
  let base := s.getHhdmBase
  (List.range (min payload.length 4096)).foldl
    (fun s i => s.store8 base codePage (BitVec.ofNat 64 i) (payload.getD i 0)) s

theorem copyPayload_eq (s : MmState) (f : U64) (payload : List (BitVec 8)) :
    copyPayload s (s.physToVirt f) payload =
      { s with mem := filled s.mem f (min payload.length 4096) (payload.getD · 0) } :=
  s.fillPage_eq s.getHhdmBase f (payload.getD · 0) (Nat.min_le_right _ _)

/-- The last part of `create_user_process`: the three mappings. -/
def mapUserPages (s : MmState) (userPml4 codePa stack1Pa stack0Pa : U64) : U64 × MmState :=
  let (mapped, s) := userMap4kInPml4 s userPml4 0x10000#64 codePa false true
  if mapped = false then (0#64, s)
  else
    let (mapped, s) := userMap4kInPml4 s userPml4 0x800000#64 stack1Pa true false
    if mapped = false then (0#64, s)
    else
      let (mapped, s) := userMap4kInPml4 s userPml4 0x801000#64 stack0Pa true false
      if mapped = false then (0#64, s)
      else (userPml4, s)

def createUserProcess (s : MmState) (payload : List (BitVec 8)) : U64 × MmState :=
  let (userPml4, s) := userAsCreate s
  if userPml4 = 0#64 then (0#64, s)
  else
    let (codePa, s) := allocZeroedPagePhys s
    let (stack1Pa, s) := allocZeroedPagePhys s
    let (stack0Pa, s) := allocZeroedPagePhys s
    if codePa = 0#64 ∨ stack1Pa = 0#64 ∨ stack0Pa = 0#64 then (0#64, s)
    else
      mapUserPages (copyPayload s (s.physToVirt codePa) payload) userPml4 codePa stack1Pa stack0Pa

/-- The calls that give a process its PML4 and its frames. -/
structure FrameSteps (s : MmState) (a code stack1 stack0 : U64) (s₁ s₂ s₃ s₄ : MmState) : Prop where
  create : userAsCreate s = (a, s₁)
  created : a ≠ 0#64
  alloc_code : allocZeroedPagePhys s₁ = (code, s₂)
  alloc_stack1 : allocZeroedPagePhys s₂ = (stack1, s₃)
  alloc_stack0 : allocZeroedPagePhys s₃ = (stack0, s₄)
  allocated : ¬ (code = 0#64 ∨ stack1 = 0#64 ∨ stack0 = 0#64)

/-- The calls behind a successful `create_user_process`. -/
structure ProcessSteps (s : MmState) (payload : List (BitVec 8)) (a code stack1 stack0 : U64)
    (s₁ s₂ s₃ s₄ s₅ s₆ s₇ : MmState) : Prop
    extends FrameSteps s a code stack1 stack0 s₁ s₂ s₃ s₄ where
  map_code : userMap4kInPml4 (copyPayload s₄ (s₄.physToVirt code) payload) a 0x10000#64 code
    false true = (true, s₅)
  map_stack1 : userMap4kInPml4 s₅ a 0x800000#64 stack1 true false = (true, s₆)
  map_stack0 : userMap4kInPml4 s₆ a 0x801000#64 stack0 true false = (true, s₇)

theorem mapUserPages_eq {s s₅ s₆ s₇ : MmState} {a code stack1 stack0 : U64}
    (hcode : userMap4kInPml4 s a 0x10000#64 code false true = (true, s₅))
    (hstack1 : userMap4kInPml4 s₅ a 0x800000#64 stack1 true false = (true, s₆))
    (hstack0 : userMap4kInPml4 s₆ a 0x801000#64 stack0 true false = (true, s₇)) :
    mapUserPages s a code stack1 stack0 = (a, s₇) := by
  simp only [mapUserPages, hcode, hstack1, hstack0, Bool.true_eq_false, if_false]

theorem mapUserPages_steps {s : MmState} {a code stack1 stack0 : U64}
    (hne : (mapUserPages s a code stack1 stack0).1 ≠ 0#64) :
    ∃ s₅ s₆ s₇, userMap4kInPml4 s a 0x10000#64 code false true = (true, s₅) ∧
      userMap4kInPml4 s₅ a 0x800000#64 stack1 true false = (true, s₆) ∧
      userMap4kInPml4 s₆ a 0x801000#64 stack0 true false = (true, s₇) := by
  unfold mapUserPages at hne
  rcases hcode : userMap4kInPml4 s a 0x10000#64 code false true with ⟨_ | _, s₅⟩
  · simp only [hcode, if_true] at hne
    exact absurd rfl hne
  rcases hstack1 : userMap4kInPml4 s₅ a 0x800000#64 stack1 true false with ⟨_ | _, s₆⟩
  · simp only [hcode, Bool.true_eq_false, if_false, hstack1, if_true] at hne
    exact absurd rfl hne
  rcases hstack0 : userMap4kInPml4 s₆ a 0x801000#64 stack0 true false with ⟨_ | _, s₇⟩
  · simp only [hcode, Bool.true_eq_false, if_false, hstack1, hstack0, if_true] at hne
    exact absurd rfl hne
  exact ⟨s₅, s₆, s₇, rfl, hstack1, hstack0⟩

theorem ProcessSteps.result {s s₁ s₂ s₃ s₄ s₅ s₆ s₇ : MmState} {payload : List (BitVec 8)}
    {a code stack1 stack0 : U64}
    (h : ProcessSteps s payload a code stack1 stack0 s₁ s₂ s₃ s₄ s₅ s₆ s₇) :
    createUserProcess s payload = (a, s₇) := by
  simp only [createUserProcess, h.create, if_neg h.created, h.alloc_code, h.alloc_stack1,
    h.alloc_stack0, if_neg h.allocated]
  exact mapUserPages_eq h.map_code h.map_stack1 h.map_stack0

/-- There is no other way to a non-zero answer. -/
theorem createUserProcess_steps {s : MmState} {payload : List (BitVec 8)}
    (hne : (createUserProcess s payload).1 ≠ 0#64) :
    ∃ a code stack1 stack0 s₁ s₂ s₃ s₄ s₅ s₆ s₇,
      ProcessSteps s payload a code stack1 stack0 s₁ s₂ s₃ s₄ s₅ s₆ s₇ := by
  rcases hcreate : userAsCreate s with ⟨a, s₁⟩
  rcases hcode : allocZeroedPagePhys s₁ with ⟨code, s₂⟩
  rcases hstack1 : allocZeroedPagePhys s₂ with ⟨stack1, s₃⟩
  rcases hstack0 : allocZeroedPagePhys s₃ with ⟨stack0, s₄⟩
  simp only [createUserProcess, hcreate, hcode, hstack1, hstack0] at hne
  split at hne
  · exact absurd rfl hne
  rename_i ha
  split at hne
  · exact absurd rfl hne
  rename_i hpages
  obtain ⟨s₅, s₆, s₇, hmap, hmap1, hmap0⟩ := mapUserPages_steps hne
  exact ⟨a, code, stack1, stack0, s₁, s₂, s₃, s₄, s₅, s₆, s₇,
    ⟨hcreate, ha, hcode, hstack1, hstack0, hpages⟩, hmap, hmap1, hmap0⟩

/-! ## What the frames of the process hold -/

/-- Tables found without crossing a large page are found by following every
present entry. -/
theorem walk_followPresent {m : Mem} {p : List (BitVec 9)} {t : U64} :
    ∀ {r : U64}, walk (child tableRef m) r p = some t →
      walk (child followPresent m) r p = some t := by
  induction p with
  | nil => exact fun h => h
  | cons i p ih =>
    intro r h
    obtain ⟨n, hn, hw⟩ := Option.bind_eq_some_iff.mp h
    refine Option.bind_eq_some_iff.mpr ⟨n, ?_, ih hw⟩
    rw [child, tableRef] at hn
    split at hn
    · rename_i hpres
      exact (if_pos hpres.1).trans hn
    · cases hn

/-- From the state `s₀` the spaces came to `s` with only available pages and new
tables written, and the frames in `held` were taken since, are no tables and hold
the bytes given. -/
structure Loaded (s₀ : MmState) (s : UserSpaces) (held : U64 → Option (Nat → BitVec 8)) : Prop where
  isolated : Isolated s₀.mem s₀.kernelPml4TemplatePhys s
  spares : Spares (.empty s₀) s
  data : ∀ t g, held t = some g → s₀.pmm.Available t ∧ s.Outside t ∧ FrameHolds s.mm.mem t g

section

variable {s₀ : MmState} {s : UserSpaces} {held : U64 → Option (Nat → BitVec 8)}

theorem UserSpaces.empty_outside {t : U64} (ht : IsFrame t) (hav : ¬ s₀.pmm.Available t) :
    (UserSpaces.empty s₀).Outside t := ⟨ht, hav, fun ⟨_, _, hr, _⟩ => absurd hr List.not_mem_nil⟩

/-- The allocator has no new pages. -/
theorem Loaded.available (h : Loaded s₀ s held) {t : U64} (ht : IsFrame t)
    (hav : s.mm.pmm.Available t) : s₀.pmm.Available t := by
  by_contra hna
  exact (h.spares.kept t (UserSpaces.empty_outside ht hna)).1.unavailable hav

/-- The tables of the low half were available before. -/
theorem Loaded.table_available (h : Loaded s₀ s held) {t : U64}
    (ht : Reached (child (lowRef s.created) s.mm.mem) (· ∈ s.created) 3 t) :
    s₀.pmm.Available t := by
  by_contra hna
  have hframe := h.isolated.low.frame t ht
  exact (h.spares.kept t (UserSpaces.empty_outside hframe hna)).1.unreached ht

/-- A step that spares what is outside the low-half tables keeps the frames. -/
theorem Loaded.step (h : Loaded s₀ s held) {s' : UserSpaces}
    (h' : Isolated s₀.mem s₀.kernelPml4TemplatePhys s') (S : Spares s s') : Loaded s₀ s' held where
  isolated := h'
  spares := h.spares.trans S
  data := by
    intro t g ht
    obtain ⟨hav, O, H⟩ := h.data t g ht
    obtain ⟨O', hsame⟩ := S.kept t O
    exact ⟨hav, O', H.of_entry_eq hsame⟩

/-- Scribbling on frames that are neither low-half tables nor shared. -/
theorem Isolated.scribble {m₀ : Mem} {template : U64} (h : Isolated m₀ template s) {F : U64 → Prop}
    (hlow : ∀ t, Reached (child (lowRef s.created) s.mm.mem) (· ∈ s.created) 3 t → ¬ F t)
    (hshared : ∀ t, SharedFrame m₀ template t → ¬ F t) {m' : Mem}
    (hm : ChangedOnlyIn F s.mm.mem m')
    {p' : Pmm} (hp : p'.Consistent) (hfewer : ∀ b, p'.Available b → s.mm.pmm.Available b) :
    Isolated m₀ template { s with mm := { s.mm with mem := m', pmm := p' } } ∧
      ∀ t, Reached (child (lowRef s.created) m') (· ∈ s.created) 3 t ↔
        Reached (child (lowRef s.created) s.mm.mem) (· ∈ s.created) 3 t := by
  have hkeep : ∀ t j, Reached (child (lowRef s.created) s.mm.mem) (· ∈ s.created) 3 t →
      entry m' t j = entry s.mm.mem t j :=
    fun t j ht => hm.entry_eq (h.low.frame t ht) (hlow t ht) j
  have htaken : ∀ t, Reached (child (lowRef s.created) s.mm.mem) (· ∈ s.created) 3 t →
      ¬ p'.Available t := fun t ht hav => h.low.unavailable t ht (hfewer t hav)
  obtain ⟨hlow', hreach, hleaf⟩ := h.low.of_entry_eq hkeep htaken
  refine ⟨?_, hreach⟩
  exact
    { pmm := hp
      template_eq := h.template_eq
      nothing_created := h.nothing_created
      low := hlow'
      shared := by
        intro t ht
        obtain ⟨hframe, hav, hnr, hsame⟩ := h.shared t ht
        exact ⟨hframe, fun hb => hav (hfewer t hb), fun hr => hnr ((hreach t).mp hr),
          fun j => (hm.entry_eq hframe (hshared t ht) j).trans (hsame j)⟩
      high := by
        intro a ha i hi
        rw [← h.high a ha i hi]
        exact hkeep a i ⟨a, [], ha, Nat.zero_le 3, rfl⟩
      unmapped := h.unmapped
      mapped := by
        intro a ha v hv
        rw [← h.mapped a ha v hv]
        exact congrArg (Option.bind · decodePte)
          (hleaf a (tablePath v) (slot1 v) ha (Nat.le_refl 3)) }

/-- Nothing shared with the template was available. -/
theorem Isolated.not_shared (h₀ : Isolated s₀.mem s₀.kernelPml4TemplatePhys (.empty s₀)) {f : U64}
    (hav : s₀.pmm.Available f) : ¬ SharedFrame s₀.mem s₀.kernelPml4TemplatePhys f :=
  fun hs => (h₀.shared f hs).2.1 hav

/-- Scribbling on a frame of the process, or on an available one: it then holds what was
written. -/
theorem Loaded.scribble (h₀ : Isolated s₀.mem s₀.kernelPml4TemplatePhys (.empty s₀))
    (h : Loaded s₀ s held) {f : U64} (hf : IsFrame f) (hav : s₀.pmm.Available f)
    (hlow : ¬ Reached (child (lowRef s.created) s.mm.mem) (· ∈ s.created) 3 f)
    {m' : Mem} (hm : ChangedOnlyIn (· = f) s.mm.mem m') {g : Nat → BitVec 8}
    (hg : FrameHolds m' f g) {p' : Pmm} (hp : p'.Consistent)
    (hfewer : ∀ b, p'.Available b → s.mm.pmm.Available b) (htaken : ¬ p'.Available f) :
    Loaded s₀ { s with mm := { s.mm with mem := m', pmm := p' } }
      (Function.update held f (some g)) := by
  obtain ⟨h', hreach⟩ := h.isolated.scribble (F := (· = f))
    (fun t ht heq => hlow (heq ▸ ht)) (fun t ht heq => h₀.not_shared hav (heq ▸ ht)) hm hp hfewer
  have houtside : ∀ t, s.Outside t →
      UserSpaces.Outside { s with mm := { s.mm with mem := m', pmm := p' } } t :=
    fun t O => ⟨O.frame, fun hb => O.unavailable (hfewer t hb),
      fun hr => O.unreached ((hreach t).mp hr)⟩
  refine ⟨h', ⟨fun t O => ?_, h.spares.pml4⟩, fun t k ht => ?_⟩
  · obtain ⟨O', hsame⟩ := h.spares.kept t O
    have htf : t ≠ f := fun heq => O.unavailable (heq ▸ hav)
    exact ⟨houtside t O', fun j => (hm.entry_eq O.frame htf j).trans (hsame j)⟩
  · by_cases htf : t = f
    · subst htf
      rw [Function.update_self] at ht
      cases Option.some.inj ht
      exact ⟨hav, ⟨hf, htaken, fun hr => hlow ((hreach t).mp hr)⟩, hg⟩
    · rw [Function.update_of_ne htf] at ht
      obtain ⟨hav', O, H⟩ := h.data t k ht
      exact ⟨hav', houtside t O, H.of_entry_eq (hm.entry_eq O.frame htf)⟩

/-- A page from `alloc_zeroed_page_phys` is a new frame, all zero. -/
theorem Loaded.alloc (h₀ : Isolated s₀.mem s₀.kernelPml4TemplatePhys (.empty s₀))
    (h : Loaded s₀ s held) {f : U64} {mm' : MmState} (heq : allocZeroedPagePhys s.mm = (f, mm'))
    (hne : f ≠ 0#64) :
    Loaded s₀ { s with mm := mm' } (Function.update held f (some fun _ => 0)) ∧ held f = none := by
  rcases allocZeroedPagePhys_spec h.isolated.pmm with ⟨hfail, -⟩ | ⟨f', p', hdone, htake⟩
  · rw [hfail] at heq
    cases heq
    exact absurd rfl hne
  rw [hdone] at heq
  cases heq
  have hf : IsFrame f := htake.isFrame
  constructor
  · refine h.scribble h₀ hf (h.available hf htake.available)
      (h.isolated.low.not_reached htake.available)
      (changedOnlyIn_zeroed _ hf (Nat.le_refl _)) (fun k hk => ?_) htake.consistent htake.fewer
      htake.taken
    rw [zeroed, add_sub_cancel_left, if_pos hk]
  · rw [Option.eq_none_iff_forall_ne_some]
    intro g hg
    exact (h.data f g hg).2.1.unavailable htake.available

/-- The payload goes to a frame that was cleared before. -/
theorem Loaded.payload (h₀ : Isolated s₀.mem s₀.kernelPml4TemplatePhys (.empty s₀))
    (h : Loaded s₀ s held) {f : U64} (hf : held f = some fun _ => 0) (payload : List (BitVec 8)) :
    Loaded s₀ { s with mm := copyPayload s.mm (s.mm.physToVirt f) payload }
      (Function.update held f (some (payload.getD · 0))) := by
  obtain ⟨hav, O, H⟩ := h.data f _ hf
  rw [copyPayload_eq]
  refine h.scribble h₀ O.frame hav O.unreached
    (changedOnlyIn_filled _ O.frame (Nat.min_le_right _ _) _) (fun k hk => ?_) h.isolated.pmm
    (fun _ hb => hb) O.unavailable
  rw [filled, add_sub_cancel_left]
  split
  · rfl
  · rename_i hge
    rw [H k hk, List.getD_eq_getElem?_getD, List.getElem?_eq_none (by omega)]
    rfl

/-- A successful mapping is recorded. -/
theorem Loaded.map (h : Loaded s₀ s held) {a va pa : U64} {w x : Bool} (ha : a ∈ s.created)
    (hva : va.getLsbD 47 = false) {mm' : MmState}
    (heq : userMap4kInPml4 s.mm a va pa w x = (true, mm')) :
    Loaded s₀ ⟨mm', s.created,
      Function.update s.last a (Function.update (s.last a) (vpn va) (some ⟨pa, w, x⟩))⟩ held := by
  obtain ⟨ok, mm'', hdone, h', S⟩ := userMap4kInPml4_spec h.isolated ha hva pa w x
  rw [hdone] at heq
  cases heq
  exact h.step h' ⟨S.kept, S.pml4⟩

/-- The tables behind a created PML4, in either half, are none of the frames held. -/
theorem Loaded.table_ne (h₀ : Isolated s₀.mem s₀.kernelPml4TemplatePhys (.empty s₀))
    (h : Loaded s₀ s held) {a f t : U64} {g : Nat → BitVec 8} (ha : a ∈ s.created)
    (hf : held f = some g) (ht : Reached (child tableRef s.mm.mem) (· = a) 3 t) : t ≠ f := by
  obtain ⟨hav, O, -⟩ := h.data f g hf
  have hshared := h₀.not_shared hav
  rintro rfl
  obtain ⟨r, p, rfl, hp, hw⟩ := ht
  cases p with
  | nil =>
    cases Option.some.inj hw
    exact O.unreached ⟨_, [], ha, Nat.zero_le 3, rfl⟩
  | cons i p =>
    have hp' : p.length ≤ 2 := Nat.le_of_succ_le_succ hp
    by_cases hi : i.toNat < 256
    · refine O.unreached ⟨_, i :: p, ha, hp, ?_⟩
      rw [← h.isolated.lowWalk_eq ha _ hp, lowWalk, if_pos hi]
      exact walk_followPresent hw
    · rw [h.isolated.walk_high ha (Nat.le_of_not_lt hi) hp'] at hw
      exact hshared ⟨h.isolated.template_ne_zero ha, .inr ⟨i, p, Nat.le_of_not_lt hi, hp', hw⟩⟩

end

/-! ## The image -/

/-- What a user page grants. -/
abbrev userPage (frame : U64) (writable executable : Bool) : Translation where
  frame := frame
  user := true
  writable := writable
  noExecute := !executable

theorem IsFrame.translation_eq {f : U64} (hf : IsFrame f) (w x : Bool) :
    UserMapping.translation ⟨f, w, x⟩ = userPage f w x := by
  rw [UserMapping.translation, show f &&& pteAddrMask = f from hf]

/-- The promised image, in the memory `m` and below the PML4 in frame `a`. -/
structure UserImage (payload : List (BitVec 8)) (template : U64) (m : Mem)
    (a code stack1 stack0 : U64) : Prop where
  /-- The low half translates three pages and nothing else. -/
  low : ∀ v, LowHalf v → hwTranslate m a v =
    if v = vpn 0x10000#64 then some (userPage code false true)
    else if v = vpn 0x800000#64 then some (userPage stack1 true false)
    else if v = vpn 0x801000#64 then some (userPage stack0 true false)
    else none
  distinct : code ≠ stack1 ∧ code ≠ stack0 ∧ stack1 ≠ stack0
  tables : ∀ t, Reached (child tableRef m) (· = a) 3 t → t ≠ code ∧ t ≠ stack1 ∧ t ≠ stack0
  code_bytes : FrameHolds m code (payload.getD · 0)
  stack1_bytes : FrameHolds m stack1 fun _ => 0
  stack0_bytes : FrameHolds m stack0 fun _ => 0
  high : ∀ i : BitVec 9, 256 ≤ i.toNat → entry m a i = entry m template i

/-- No user page of the image is both writable and executable. -/
theorem UserImage.write_xor_execute {payload : List (BitVec 8)} {template : U64} {m : Mem}
    {a code stack1 stack0 : U64} (h : UserImage payload template m a code stack1 stack0)
    {v : BitVec 36} (hv : LowHalf v) {tr : Translation} (htr : hwTranslate m a v = some tr) :
    ¬ (tr.writable = true ∧ tr.noExecute = false) := by
  rw [h.low v hv] at htr
  split at htr
  · cases htr
    simp
  split at htr
  · cases htr
    simp
  split at htr
  · cases htr
    simp
  · cases htr

theorem SharedFrame.isFrame {m : Mem} {template t : U64} (ht : SharedFrame m template t)
    (hframe : IsFrame template) : IsFrame t := by
  rcases ht.2 with rfl | ⟨i, p, -, -, hw⟩
  · exact hframe
  · exact isFrame_of_walk_cons hw

theorem Loaded.empty {s : MmState} (h₀ : Isolated s.mem s.kernelPml4TemplatePhys (.empty s)) :
    Loaded s (.empty s) fun _ => none :=
  ⟨h₀, .refl _, fun _ _ h => absurd h (by simp)⟩

theorem Loaded.create {s s₁ : MmState} {a : U64}
    (h₀ : Isolated s.mem s.kernelPml4TemplatePhys (.empty s)) (heq : userAsCreate s = (a, s₁))
    (ha : a ≠ 0#64) : Loaded s ⟨s₁, [a], fun _ _ => none⟩ fun _ => none := by
  obtain ⟨a', mm', hdone, h', S⟩ := userAsCreate_spec h₀
  change userAsCreate s = _ at hdone
  rw [hdone] at heq
  cases heq
  rw [if_neg ha] at h' S
  exact (Loaded.empty h₀).step h' S

/-- The mappings recorded by the three calls. -/
theorem lookup_three {β : Type} {v v₁ v₂ v₃ : BitVec 36} (b₁ b₂ b₃ : β)
    (hd : v₁ ≠ v₂ ∧ v₁ ≠ v₃ ∧ v₂ ≠ v₃) :
    Function.update (Function.update (Function.update (fun _ => none) v₁ (some b₁)) v₂ (some b₂))
      v₃ (some b₃) v =
        if v = v₁ then some b₁ else if v = v₂ then some b₂
          else if v = v₃ then some b₃ else none := by
  simp only [Function.update_apply]
  by_cases h1 : v = v₁
  · simp [h1, hd]
  by_cases h2 : v = v₂
  · simp [h2, hd, hd.1.symm]
  · simp [h1, h2]

/-- The frames are different ones, and hold the payload and zeros. -/
structure ProcessFrames (held : U64 → Option (Nat → BitVec 8)) (payload : List (BitVec 8))
    (code stack1 stack0 : U64) : Prop where
  distinct : code ≠ stack1 ∧ code ≠ stack0 ∧ stack1 ≠ stack0
  code : held code = some (payload.getD · 0)
  stack1 : held stack1 = some fun _ => 0
  stack0 : held stack0 = some fun _ => 0

theorem FrameSteps.loaded {s s₁ s₂ s₃ s₄ : MmState} {a code stack1 stack0 : U64}
    (h : FrameSteps s a code stack1 stack0 s₁ s₂ s₃ s₄)
    (h₀ : Isolated s.mem s.kernelPml4TemplatePhys (.empty s)) (payload : List (BitVec 8)) :
    ∃ held, Loaded s ⟨copyPayload s₄ (s₄.physToVirt code) payload, [a], fun _ _ => none⟩ held ∧
      ProcessFrames held payload code stack1 stack0 := by
  have hne := h.allocated
  rw [not_or, not_or] at hne
  have L₁ := Loaded.create h₀ h.create h.created
  obtain ⟨L₂, -⟩ := L₁.alloc h₀ h.alloc_code hne.1
  obtain ⟨L₃, hfresh1⟩ := L₂.alloc h₀ h.alloc_stack1 hne.2.1
  obtain ⟨L₄, hfresh0⟩ := L₃.alloc h₀ h.alloc_stack0 hne.2.2
  -- a frame already holding something is not handed out again
  have h1 : stack1 ≠ code := by
    rintro rfl
    simp at hfresh1
  have h01 : stack0 ≠ stack1 := by
    rintro rfl
    simp at hfresh0
  have h0 : stack0 ≠ code := by
    rintro rfl
    simp [h1.symm] at hfresh0
  refine ⟨_, L₄.payload h₀ ?_ payload, ⟨h1.symm, h0.symm, h01.symm⟩, ?_, ?_, ?_⟩
  · rw [Function.update_of_ne h0.symm, Function.update_of_ne h1.symm, Function.update_self]
  · rw [Function.update_self]
  · rw [Function.update_of_ne h1, Function.update_of_ne h01.symm, Function.update_self]
  · rw [Function.update_of_ne h0, Function.update_self]

/-- The calls of a successful `create_user_process` leave the frames as they are
and record three mappings. -/
theorem ProcessSteps.loaded {s s₁ s₂ s₃ s₄ s₅ s₆ s₇ : MmState} {payload : List (BitVec 8)}
    {a code stack1 stack0 : U64}
    (h : ProcessSteps s payload a code stack1 stack0 s₁ s₂ s₃ s₄ s₅ s₆ s₇)
    (h₀ : Isolated s.mem s.kernelPml4TemplatePhys (.empty s)) :
    ∃ held last, Loaded s ⟨s₇, [a], last⟩ held ∧ ProcessFrames held payload code stack1 stack0 ∧
      ∀ v, last a v =
        if v = vpn 0x10000#64 then some ⟨code, false, true⟩
        else if v = vpn 0x800000#64 then some ⟨stack1, true, false⟩
        else if v = vpn 0x801000#64 then some ⟨stack0, true, false⟩
        else none := by
  have hself : a ∈ [a] := List.mem_cons_self
  obtain ⟨held, L₄, hframes⟩ := h.toFrameSteps.loaded h₀ payload
  have L₅ := L₄.map hself (by decide) h.map_code
  have L₆ := L₅.map hself (by decide) h.map_stack1
  have L₇ := L₆.map hself (by decide) h.map_stack0
  refine ⟨held, _, L₇, hframes, fun v => ?_⟩
  simp only [Function.update_self]
  exact lookup_three _ _ _ (by decide)

/-- **`create_user_process` builds the promised image.** Suppose the page allocator
was only ever given back held pages and will not hand out the template or the
tables behind it. A non-zero answer is a PML4 with the image below it, for any
payload (its first 4096 bytes are copied), in three frames that were available
before the call; the template is as it was. -/
theorem create_user_process_image {s : MmState} (hpmm : s.pmm.Reachable)
    (hframe : IsFrame s.kernelPml4TemplatePhys)
    (htables : ∀ t, SharedFrame s.mem s.kernelPml4TemplatePhys t → ¬ s.pmm.Available t)
    (payload : List (BitVec 8)) (hne : (createUserProcess s payload).1 ≠ 0#64) :
    ∃ code stack1 stack0,
      UserImage payload s.kernelPml4TemplatePhys (createUserProcess s payload).2.mem
        (createUserProcess s payload).1 code stack1 stack0 ∧
      (s.pmm.Available code ∧ s.pmm.Available stack1 ∧ s.pmm.Available stack0) ∧
      (∀ v tr, LowHalf v →
        hwTranslate (createUserProcess s payload).2.mem (createUserProcess s payload).1 v
          = some tr →
        ¬ (tr.writable = true ∧ tr.noExecute = false)) ∧
      ∀ i, entry (createUserProcess s payload).2.mem s.kernelPml4TemplatePhys i =
        entry s.mem s.kernelPml4TemplatePhys i := by
  have h₀ := UserSpaces.empty_isolated hpmm.consistent fun t ht => ⟨ht.isFrame hframe, htables t ht⟩
  obtain ⟨a, code, stack1, stack0, s₁, s₂, s₃, s₄, s₅, s₆, s₇, hsteps⟩ :=
    createUserProcess_steps hne
  obtain ⟨held, last, L, ⟨hd, hcode, hstack1, hstack0⟩, hlast⟩ := hsteps.loaded h₀
  have hself : a ∈ [a] := List.mem_cons_self
  have htemplate : ∀ i, entry s₇.mem s.kernelPml4TemplatePhys i =
      entry s.mem s.kernelPml4TemplatePhys i :=
    L.isolated.shared_entry _ ⟨L.isolated.template_ne_zero hself, .inl rfl⟩
  obtain ⟨hav, Oc, Hc⟩ := L.data code _ hcode
  obtain ⟨hav1, O1, H1⟩ := L.data stack1 _ hstack1
  obtain ⟨hav0, O0, H0⟩ := L.data stack0 _ hstack0
  have himage : UserImage payload s.kernelPml4TemplatePhys s₇.mem a code stack1 stack0 :=
    { distinct := hd
      tables := fun t ht => ⟨L.table_ne h₀ hself hcode ht, L.table_ne h₀ hself hstack1 ht,
        L.table_ne h₀ hself hstack0 ht⟩
      code_bytes := Hc, stack1_bytes := H1, stack0_bytes := H0
      high := fun i hi => (L.isolated.high a hself i hi).trans (htemplate i).symm
      low := by
        intro v hv
        rw [L.isolated.translate hself v, if_pos hv]
        change (last a v).map _ = _
        rw [hlast v]
        simp only [apply_ite (Option.map UserMapping.translation), Option.map_some, Option.map_none,
          Oc.frame.translation_eq, O1.frame.translation_eq, O0.frame.translation_eq] }
  rw [hsteps.result]
  exact ⟨code, stack1, stack0, himage, ⟨hav, hav1, hav0⟩,
    fun v tr hv => himage.write_xor_execute hv, htemplate⟩

/-! ## Enough pages -/

section Room

variable {s₀ : MmState} {s : UserSpaces} {held : U64 → Option (Nat → BitVec 8)} {n : Nat}

theorem allocZeroedPagePhys_room {s : MmState} (h : s.pmm.Consistent)
    (hroom : n + 1 ≤ s.pmm.freeCount) :
    ∃ f s', allocZeroedPagePhys s = (f, s') ∧ f ≠ 0#64 ∧ n ≤ s'.pmm.freeCount ∧
      s'.getHhdmBase = s.getHhdmBase := by
  rcases pmmAllocPage_cases h with ⟨-, hex⟩ | ⟨f, p', heq, htake⟩
  · rw [h.exhausted_iff] at hex
    omega
  · have hcount := pmmAllocPage_freeCount h heq htake.isPage.ne_zero
    refine ⟨f, _, allocZeroedPagePhys_eq heq htake.isPage.ne_zero, htake.isPage.ne_zero, ?_, rfl⟩
    change n ≤ p'.freeCount
    omega

theorem Isolated.userAsCreate_room {m₀ : Mem} {template : U64} (h : Isolated m₀ template s)
    (hroom : n + 1 ≤ s.mm.pmm.freeCount) (htemplate : template ≠ 0#64) :
    ∃ a s', userAsCreate s.mm = (a, s') ∧ a ≠ 0#64 ∧ n ≤ s'.pmm.freeCount ∧
      s'.getHhdmBase = s.mm.getHhdmBase := by
  rcases h.userAsCreate_cases with ⟨-, h0 | hex⟩ | ⟨f, p', m', -, halloc, htake, heq, -⟩
  · exact absurd h0 htemplate
  · rw [h.pmm.exhausted_iff] at hex
    omega
  · have hcount := pmmAllocPage_freeCount h.pmm halloc htake.isPage.ne_zero
    refine ⟨f, _, heq, htake.isPage.ne_zero, ?_, rfl⟩
    change n ≤ p'.freeCount
    omega

/-- Every table of the process is a page, so the window shows it. -/
theorem Loaded.table_isPage (h₀ : s₀.pmm.Consistent) (h : Loaded s₀ s held) {t : U64}
    (ht : Reached (child (lowRef s.created) s.mm.mem) (· ∈ s.created) 3 t) : IsPage t := by
  have hframe := h.isolated.low.frame t ht
  rcases h.table_available ht with hmem | ⟨hlo, hhi⟩
  · exact h₀.stack_isPage hmem
  · refine ⟨((isFrame_iff t).mp hframe).1, ?_, hhi⟩
    exact BitVec.le_trans h₀.start_le hlo

variable {a t : U64} {p : List (BitVec 9)} {i : BitVec 9}

/-- With a page to spare, one level of the walk succeeds. -/
theorem Loaded.level_room (h₀ : s₀.pmm.Consistent) (h : Loaded s₀ s held) (L : LowSlot s a p t i)
    (hp : p.length ≤ 2) (hroom : n + 1 ≤ s.mm.pmm.freeCount)
    (hshown : ∀ f, IsPage f → f + s.mm.getHhdmBase ≠ 0#64) :
    (getOrMakeTableInPml4 s.mm t (i.setWidth 64) pteUser).1 ≠ 0#64 ∧
      n ≤ (getOrMakeTableInPml4 s.mm t (i.setWidth 64) pteUser).2.pmm.freeCount := by
  have hc := h.isolated.pmm
  have ht : IsFrame t := h.isolated.low.isFrame L.created L.depth L.walks
  rcases getOrMakeTableInPml4_cases hc ht i with
    ⟨hpres, heq⟩ | ⟨-, hex, -⟩ | ⟨-, f, p', halloc, htake, heq⟩
  · have hchild : child (lowRef s.created) s.mm.mem t i =
        some (pteToPhys (entry s.mm.mem t i)) := by
      rw [child, L.lowRef_eq h.isolated]
      exact if_pos hpres
    have hreach : Reached (child (lowRef s.created) s.mm.mem) (· ∈ s.created) 3
        (pteToPhys (entry s.mm.mem t i)) := by
      refine ⟨a, p ++ [i], L.created, length_concat_le i hp, ?_⟩
      rw [walk_concat, L.walks]
      exact hchild
    rw [heq]
    exact ⟨hshown _ (h.table_isPage h₀ hreach), Nat.le_of_succ_le hroom⟩
  · rw [hc.exhausted_iff] at hex
    omega
  · have hcount := pmmAllocPage_freeCount hc halloc htake.isPage.ne_zero
    rw [heq]
    refine ⟨hshown f htake.isPage, ?_⟩
    change n ≤ p'.freeCount
    omega

/-- A mapping takes three pages at most. -/
theorem Loaded.map_room (h₀ : s₀.pmm.Consistent) (h : Loaded s₀ s held) (ha : a ∈ s.created)
    {va : U64} (hva : va.getLsbD 47 = false) (hroom : n + 3 ≤ s.mm.pmm.freeCount)
    (hshown : ∀ f, IsPage f → f + s.mm.getHhdmBase ≠ 0#64) (pa : U64) (w x : Bool) :
    ∃ mm', userMap4kInPml4 s.mm a va pa w x = (true, mm') ∧ n ≤ mm'.pmm.freeCount ∧
      mm'.getHhdmBase = s.mm.getHhdmBase := by
  simp only [userMap4kInPml4, pml4Index_eq, pdptIndex_eq, pdIndex_eq, ptIndex_eq,
    MmState.physToVirt]
  have L₄ : LowSlot s a [] a (slot4 (vpn va)) :=
    ⟨ha, rfl, Nat.zero_le 3, fun _ => lowHalf_vpn.mpr hva⟩
  obtain ⟨⟨i₁, hbase₁, hwalk⟩, S₁⟩ := getOrMakeTableInPml4_spec h.isolated L₄ (Nat.zero_le 2)
  obtain ⟨hnull, hroom⟩ := h.level_room h₀ L₄ (Nat.zero_le 2) hroom hshown
  generalize getOrMakeTableInPml4 s.mm a _ pteUser = r at *
  obtain ⟨pdpt, mm₁⟩ := r
  obtain ⟨f₃, rfl, hroot, hw₃⟩ := hwalk hnull
  simp only [if_neg hnull, hbase₁, MmState.load_window, entry_and_mask_of_walk hroot hw₃]
  have L₃ : LowSlot { s with mm := mm₁ } a [slot4 (vpn va)] f₃ (slot3 (vpn va)) :=
    ⟨ha, hw₃, Nat.succ_le_succ (Nat.zero_le 2), fun hnil => absurd hnil (List.cons_ne_nil _ _)⟩
  have h₁ := h.step i₁ S₁
  obtain ⟨⟨i₂, hbase₂, hwalk⟩, S₂⟩ := getOrMakeTableInPml4_spec i₁ L₃ (Nat.le_succ 1)
  rw [← hbase₁] at hshown
  obtain ⟨hnull, hroom⟩ := h₁.level_room h₀ L₃ (Nat.le_succ 1) hroom hshown
  generalize getOrMakeTableInPml4 mm₁ f₃ _ pteUser = r at *
  obtain ⟨pd, mm₂⟩ := r
  obtain ⟨f₂, rfl, hw₃, hw₂⟩ := hwalk hnull
  rw [hbase₁] at hnull
  simp only [hbase₁, if_neg hnull, entry_and_mask_of_walk hw₃ hw₂]
  have L₂ : LowSlot { s with mm := mm₂ } a [slot4 (vpn va), slot3 (vpn va)] f₂ (slot2 (vpn va)) :=
    ⟨ha, hw₂, Nat.le_succ 2, fun hnil => absurd hnil (List.cons_ne_nil _ _)⟩
  have h₂ := h₁.step i₂ S₂
  obtain ⟨⟨i₃, hbase₃, hwalk⟩, S₃⟩ := getOrMakeTableInPml4_spec i₂ L₂ (Nat.le_refl 2)
  rw [← hbase₂] at hshown
  obtain ⟨hnull, hroom⟩ := h₂.level_room h₀ L₂ (Nat.le_refl 2) hroom hshown
  generalize getOrMakeTableInPml4 mm₂ f₂ _ pteUser = r at *
  obtain ⟨pt, mm₃⟩ := r
  simp only [if_neg hnull]
  exact ⟨_, rfl, hroom, hbase₃.trans (hbase₂.trans hbase₁)⟩

/-- The PML4 and the three pages take four pages. -/
theorem frameSteps_room (h₀ : Isolated s₀.mem s₀.kernelPml4TemplatePhys (.empty s₀))
    (hroom : n + 4 ≤ s₀.pmm.freeCount) (htemplate : s₀.kernelPml4TemplatePhys ≠ 0#64) :
    ∃ a code stack1 stack0 s₁ s₂ s₃ s₄, FrameSteps s₀ a code stack1 stack0 s₁ s₂ s₃ s₄ ∧
      n ≤ s₄.pmm.freeCount ∧ s₄.getHhdmBase = s₀.getHhdmBase := by
  obtain ⟨a, s₁, hcreate, ha, hn, hb₁⟩ := h₀.userAsCreate_room hroom htemplate
  have L₁ := Loaded.create h₀ hcreate ha
  obtain ⟨code, s₂, hcode, hne, hn, hb₂⟩ := allocZeroedPagePhys_room L₁.isolated.pmm hn
  obtain ⟨L₂, -⟩ := L₁.alloc h₀ hcode hne
  obtain ⟨stack1, s₃, hstack1, hne1, hn, hb₃⟩ := allocZeroedPagePhys_room L₂.isolated.pmm hn
  obtain ⟨L₃, -⟩ := L₂.alloc h₀ hstack1 hne1
  obtain ⟨stack0, s₄, hstack0, hne0, hn, hb₄⟩ := allocZeroedPagePhys_room L₃.isolated.pmm hn
  have hallocated : ¬ (code = 0#64 ∨ stack1 = 0#64 ∨ stack0 = 0#64) := by
    rintro (h | h | h)
    · exact hne h
    · exact hne1 h
    · exact hne0 h
  exact ⟨a, code, stack1, stack0, s₁, s₂, s₃, s₄,
    ⟨hcreate, ha, hcode, hstack1, hstack0, hallocated⟩, hn, hb₄.trans (hb₃.trans (hb₂.trans hb₁))⟩

/-- Thirteen pages are enough: these four, and three tables at most for each of
the three mappings. -/
theorem createUserProcess_room (h₀ : Isolated s₀.mem s₀.kernelPml4TemplatePhys (.empty s₀))
    (hroom : 13 ≤ s₀.pmm.freeCount) (htemplate : s₀.kernelPml4TemplatePhys ≠ 0#64)
    (hshown : ∀ f, IsPage f → f + s₀.getHhdmBase ≠ 0#64) (payload : List (BitVec 8)) :
    (createUserProcess s₀ payload).1 ≠ 0#64 := by
  have hc : s₀.pmm.Consistent := h₀.pmm
  obtain ⟨a, code, stack1, stack0, s₁, s₂, s₃, s₄, hsteps, hn, hb⟩ :=
    frameSteps_room (n := 9) h₀ hroom htemplate
  have hself : a ∈ [a] := List.mem_cons_self
  have hlow : (0x10000#64).getLsbD 47 = false := by decide
  have hlow1 : (0x800000#64).getLsbD 47 = false := by decide
  have hlow0 : (0x801000#64).getLsbD 47 = false := by decide
  obtain ⟨held, L, -⟩ := hsteps.loaded h₀ payload
  have hcopy := copyPayload_eq s₄ code payload
  have hn : 6 + 3 ≤ (copyPayload s₄ (s₄.physToVirt code) payload).pmm.freeCount := by
    rw [hcopy]
    exact hn
  have hb : (copyPayload s₄ (s₄.physToVirt code) payload).getHhdmBase = s₀.getHhdmBase := by
    rw [hcopy]
    exact hb
  rw [← hb] at hshown
  obtain ⟨s₅, hmap, hn, hb₅⟩ := L.map_room hc hself hlow hn hshown code false true
  have L₅ := L.map hself hlow hmap
  rw [← hb₅] at hshown
  obtain ⟨s₆, hmap1, hn, hb₆⟩ :=
    L₅.map_room (n := 3) hc hself hlow1 hn hshown stack1 true false
  have L₆ := L₅.map hself hlow1 hmap1
  rw [← hb₆] at hshown
  obtain ⟨s₇, hmap0, -, -⟩ := L₆.map_room (n := 0) hc hself hlow0 hn hshown stack0 true false
  rw [ProcessSteps.result ⟨hsteps, hmap, hmap1, hmap0⟩]
  exact hsteps.created

end Room

/-- A process with a two-byte payload, right after the template was made. -/
theorem create_user_process_image_booted :
    (createUserProcess (initKernelPml4Template .blank) [0x0f#8, 0x05#8]).1 ≠ 0#64 ∧
      ∃ code stack1 stack0, UserImage [0x0f#8, 0x05#8] 0x200000#64
        (createUserProcess (initKernelPml4Template .blank) [0x0f#8, 0x05#8]).2.mem
        (createUserProcess (initKernelPml4Template .blank) [0x0f#8, 0x05#8]).1 code stack1
          stack0 := by
  have hblank : MmState.blank.pmm.Reachable := pmmInit_reachable _
  have h₀ := UserSpaces.start_isolated hblank.consistent fun _ => bootTable_blank
  change Isolated _ _ (.empty (initKernelPml4Template .blank)) at h₀
  obtain ⟨m', hinit, -⟩ := initKernelPml4Template_booted MmState.blank.mem
  change initKernelPml4Template .blank = _ at hinit
  rw [hinit] at h₀ ⊢
  have hshown : ∀ f, IsPage f → f + MmState.blank.getHhdmBase ≠ 0#64 := by
    rintro f ⟨-, -, hhi⟩
    rw [pmmEndAddr] at hhi
    change f + 0xffff800000000000#64 ≠ 0#64
    bv_omega
  have hroom : 13 ≤ (pmmAllocPage MmState.blank.pmm).2.freeCount := by decide
  have htemplate : 0x200000#64 ≠ 0#64 := by decide
  have hframe : IsFrame 0x200000#64 := by decide
  have hne := createUserProcess_room h₀ hroom htemplate hshown [0x0f#8, 0x05#8]
  obtain ⟨code, stack1, stack0, himage, -⟩ := create_user_process_image hblank.allocPage hframe
    (fun t ht => (h₀.shared t ht).2.1) [0x0f#8, 0x05#8] hne
  exact ⟨hne, code, stack1, stack0, himage⟩

end Myria.Mm
