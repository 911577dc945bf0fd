import Myria.Util.Klog

/-! Where `kprintf` stops. The loop tests for the NUL only between directives, so
what happens at the end of a format depends on whether it ends inside one. -/
namespace Myria.Util

open Text ByteMem Loop

/-- The format does not end inside a directive, that is after a `%` or a `%l`. -/
def Complete : List Byte → Bool
  | [] => true
  | c :: cs =>
    if c = chr '%' then
      match cs with
      | [] => false
      | d :: ds =>
        if d = chr 'l' then
          match ds with
          | [] => false
          | _ :: es => Complete es
        else Complete ds
    else Complete cs

namespace KprintfCall

variable {k : KprintfCall} {s t : Printing}

/-- By how many characters a round advances. -/
def width (k : KprintfCall) (pos : Nat) : Nat :=
  if k.char pos = chr '%' then if k.char (pos + 1) = chr 'l' then 3 else 2 else 1

/-- The call is over with `fmt` at position `n`. -/
def EndsAt (k : KprintfCall) (n : Nat) : Prop :=
  ∃ fuel t, k.kprintf fuel = some (.exit t) ∧ t.pos = n

/-- At no time has the call read a character of the format behind position `n`. -/
def ReadsWithin (k : KprintfCall) (n : Nat) : Prop :=
  ∀ fuel t, k.kprintf fuel = some (.next t) ∨ k.kprintf fuel = some (.exit t) →
    ∀ i ∈ t.reads, i ≤ n

/-- The loop comes from `s` to position `pos`. -/
def Reaches (k : KprintfCall) (s : Printing) (pos : Nat) : Prop :=
  ∃ n t, exec k.round n s = some (.next t) ∧ t.pos = pos

/-! ## One round -/

section Round

-- `%s` may be given any pointer; with a NUL somewhere in memory `serial_puts` returns
variable {x : U64} (hx : k.mem x = 0)

include hx

theorem directive_two (hl : k.char s.look.advance.pos ≠ chr 'l') :
    ∃ args cs, (k.directive s.look.advance).map (fun t => Round.next t.advance) =
      some (.next (s.after 2 args cs)) := by
  by_cases hd : k.char s.look.advance.pos = chr 'd'
  · rw [directive_d hd, kprintInt_word]
    exact ⟨1, _, s.next_printArg_two _⟩
  by_cases hu : k.char s.look.advance.pos = chr 'u'
  · rw [directive_u hu, kprintUint_word _ (by decide) (by decide)]
    exact ⟨1, _, s.next_printArg_two _⟩
  by_cases hx' : k.char s.look.advance.pos = chr 'x'
  · rw [directive_x hx', kprintUint_word _ (by decide) (by decide)]
    exact ⟨1, _, s.next_printArg_two _⟩
  by_cases hs : k.char s.look.advance.pos = chr 's'
  · have htext : ∃ cs, (if k.va s.look.advance.args ≠ 0 then
        serialPuts k.mem (k.va s.look.advance.args) else some (chars "(null)")) = some cs := by
      split
      · exact scan_isSome hx _
      · exact ⟨_, rfl⟩
    obtain ⟨cs, hcs⟩ := htext
    rw [directive_s hs, hcs]
    exact ⟨1, cs, s.next_printArg_two cs⟩
  by_cases hp : k.char s.look.advance.pos = chr '%'
  · rw [directive_percent hp]
    exact ⟨0, _, s.next_print_two _⟩
  · rw [directive_default (by simp [hd, hu, hx', hl, hs, hp])]
    exact ⟨0, _, s.next_print_two _⟩

omit hx in
theorem directive_three (hl : k.char s.look.advance.pos = chr 'l') :
    ∃ args cs, (k.directive s.look.advance).map (fun t => Round.next t.advance) =
      some (.next (s.after 3 args cs)) := by
  rw [directive_l hl, kprintUint_eq (by decide) (by decide), kprintUint_eq (by decide) (by decide)]
  split
  · exact ⟨1, _, s.next_printArg_three _⟩
  split
  · exact ⟨1, _, s.next_printArg_three _⟩
  · exact ⟨0, _, s.next_skip_three⟩

theorem round_next (hs : k.char s.pos ≠ 0) :
    ∃ args cs, k.round s = some (.next (s.after (k.width s.pos) args cs)) := by
  rw [width]
  by_cases hp : k.char s.pos = chr '%'
  · rw [if_pos hp, round_percent hp]
    by_cases hl : k.char (s.pos + 1) = chr 'l'
    · rw [if_pos hl]
      exact directive_three hl
    · rw [if_neg hl]
      exact directive_two hx hl
  · rw [if_neg hp]
    exact ⟨0, _, round_literal hs hp⟩

/-- Every character before `fmt` has been read, and no other. -/
theorem round_reads (hreads : s.reads = List.range s.pos) (h : k.round s = some (.next t)) :
    t.reads = List.range t.pos ∧ s.pos < t.pos := by
  by_cases hs : k.char s.pos = 0
  · rw [round_nul hs] at h
    cases h
  · obtain ⟨args, cs, hround⟩ := round_next hx hs
    rw [hround] at h
    cases h
    have hrange : List.range s.pos ++ List.range' s.pos (k.width s.pos) =
        List.range (s.pos + k.width s.pos) := by
      simp only [List.range_eq_range', ← List.range'_append_1, Nat.zero_add]
    refine ⟨(congrArg (· ++ _) hreads).trans hrange, Nat.lt_add_of_pos_right ?_⟩
    rw [width]
    split <;> [split; skip] <;> decide

theorem round_exit (h : k.round s = some (.exit t)) : t = s.look := by
  by_cases hs : k.char s.pos = 0
  · rw [round_nul hs] at h
    cases h
    rfl
  · obtain ⟨args, cs, hround⟩ := round_next hx hs
    rw [hround] at h
    cases h

end Round

/-! ## Whole runs -/

section Run

variable {x : U64} (hx : k.mem x = 0)

include hx

theorem reaches_of_round {w pos : Nat} (hs : k.char s.pos ≠ 0) (hw : k.width s.pos = w)
    (h : ∀ t, t.pos = s.pos + w → k.Reaches t pos) : k.Reaches s pos := by
  obtain ⟨args, cs, hround⟩ := round_next hx hs
  rw [hw] at hround
  obtain ⟨n, t, hrun, hpos⟩ := h (s.after w args cs) rfl
  exact ⟨n + 1, t, (exec_succ_of_next hround n).trans hrun, hpos⟩

/-- From the start of a string the loop comes to its NUL, or to the character behind
the NUL if the string ends inside a directive. -/
theorem reaches_end {cs : List Byte} {pos : Nat} (hcs : 0 ∉ cs)
    (htext : k.Spells s.pos (cs ++ [0]))
    (hpos : pos = s.pos + cs.length + if Complete cs then 0 else 1) : k.Reaches s pos := by
  fun_induction Complete cs generalizing s with
  | case1 => exact ⟨0, s, rfl, hpos.symm⟩
  | case2 =>
    -- a lone `%` at the end: the NUL is taken for the character of the directive
    obtain ⟨hc, htext⟩ := along_cons.mp htext
    obtain ⟨hnul, -⟩ := along_cons.mp htext
    have hw : k.width s.pos = 2 := by rw [width, if_pos hc, if_neg (by rw [hnul]; decide)]
    refine reaches_of_round hx (by rw [hc]; decide) hw fun t ht => ⟨0, t, rfl, ?_⟩
    rw [ht, hpos]
    rfl
  | case3 =>
    -- `%l` at the end: the NUL is taken for the character after the `l`
    obtain ⟨hc, htext⟩ := along_cons.mp htext
    obtain ⟨hl, -⟩ := along_cons.mp htext
    have hw : k.width s.pos = 3 := by rw [width, if_pos hc, if_pos hl]
    refine reaches_of_round hx (by rw [hc]; decide) hw fun t ht => ⟨0, t, rfl, ?_⟩
    rw [ht, hpos]
    rfl
  | case4 e es ih =>
    obtain ⟨hc, htext⟩ := along_cons.mp htext
    obtain ⟨hl, htext⟩ := along_cons.mp htext
    obtain ⟨-, htext⟩ := along_cons.mp htext
    have hw : k.width s.pos = 3 := by rw [width, if_pos hc, if_pos hl]
    have hes : 0 ∉ es := fun h => hcs (.tail _ (.tail _ (.tail _ h)))
    refine reaches_of_round hx (by rw [hc]; decide) hw fun t ht => ih hes (ht ▸ htext) ?_
    simp only [hpos, ht, List.length_cons]
    omega
  | case5 d ds hd ih =>
    obtain ⟨hc, htext⟩ := along_cons.mp htext
    obtain ⟨hd', htext⟩ := along_cons.mp htext
    have hw : k.width s.pos = 2 := by rw [width, if_pos hc, if_neg (by rw [hd']; exact hd)]
    have hds : 0 ∉ ds := fun h => hcs (.tail _ (.tail _ h))
    refine reaches_of_round hx (by rw [hc]; decide) hw fun t ht => ih hds (ht ▸ htext) ?_
    simp only [hpos, ht, List.length_cons]
    omega
  | case6 c cs hc ih =>
    obtain ⟨hc', htext⟩ := along_cons.mp htext
    have hw : k.width s.pos = 1 := by rw [width, if_neg (by rw [hc']; exact hc)]
    have hne : k.char s.pos ≠ 0 := fun h => hcs (by simp [← h, hc'])
    have hrest : 0 ∉ cs := fun h => hcs (.tail _ h)
    refine reaches_of_round hx hne hw fun t ht => ih hrest (ht ▸ htext) ?_
    simp only [hpos, ht, List.length_cons]
    omega

/-- `fmt` only moves forward. -/
theorem exit_pos_le {n : Nat} {u : Printing} (hreads : s.reads = List.range s.pos)
    (h : exec k.round n s = some (.exit u)) :
    u.reads = List.range (u.pos + 1) ∧ s.pos ≤ u.pos := by
  refine exec_exit_invariant (P := fun t : Printing => t.reads = List.range t.pos ∧ s.pos ≤ t.pos)
    (Q := fun t => t.reads = List.range (t.pos + 1) ∧ s.pos ≤ t.pos)
    (fun t t' ht hround => ?_) (fun t t' ht hround => ?_) ⟨hreads, Nat.le_refl _⟩ h
  · obtain ⟨hreads', hlt⟩ := round_reads hx ht.1 hround
    exact ⟨hreads', ht.2.trans hlt.le⟩
  · cases round_exit hx hround
    refine ⟨?_, ht.2⟩
    rw [Printing.look, ht.1, List.range_succ]

theorem next_reads {n : Nat} {u : Printing} (h : k.kprintf n = some (.next u)) :
    u.reads = List.range u.pos :=
  exec_next_invariant (P := fun t : Printing => t.reads = List.range t.pos)
    (fun _ _ ht hround => (round_reads hx ht hround).1) rfl h

/-- A call that ends at `n` has read nothing behind `n` on the way. -/
theorem EndsAt.readsWithin {n : Nat} (h : k.EndsAt n) : k.ReadsWithin n := by
  obtain ⟨m, u, hexit, rfl⟩ := h
  have hu := (exit_pos_le hx rfl hexit).1
  rintro fuel t (hnext | hexit') i hi
  · have hreads := next_reads hx hnext
    have hle := (exit_pos_le hx hreads (exec_exit_of_next hnext hexit)).2
    rw [hreads, List.mem_range] at hi
    omega
  · rw [exec_exit_unique hexit' hexit, hu, List.mem_range] at hi
    omega

/-- Once behind `n`, the loop reads there before it can stop. -/
theorem Reaches.not_readsWithin {n : Nat} (h : k.Reaches {} (n + 1)) : ¬ k.ReadsWithin n := by
  obtain ⟨m, t, hrun, hpos⟩ := h
  have hreads := next_reads hx hrun
  intro hwithin
  have hround : k.kprintf (m + 1) = exec k.round 1 t := exec_add_of_next hrun 1
  by_cases hnul : k.char t.pos = 0
  · rw [exec_succ_of_exit (round_nul hnul)] at hround
    have hlast : n + 1 ∈ t.look.reads := by simp [Printing.look, hpos]
    have := hwithin _ _ (.inr hround) _ hlast
    omega
  · obtain ⟨args, cs, hnext⟩ := round_next hx hnul
    rw [exec_succ_of_next hnext] at hround
    obtain ⟨hreads', hlt⟩ := round_reads hx hreads hnext
    have hlast : n + 1 ∈ (t.after (k.width t.pos) args cs).reads := by
      rw [hreads', List.mem_range, ← hpos]
      exact hlt
    have := hwithin _ _ (.inl hround) _ hlast
    omega

theorem Reaches.not_endsAt {n : Nat} (h : k.Reaches {} (n + 1)) : ¬ k.EndsAt n := by
  obtain ⟨m, t, hrun, hpos⟩ := h
  rintro ⟨m', u, hexit, rfl⟩
  have hle := (exit_pos_le hx (next_reads hx hrun) (exec_exit_of_next hrun hexit)).2
  omega

end Run

/-- For every string whatsoever as the format, and whatever the arguments are:
`kprintf` keeps to the string, and it stops at the NUL, exactly when the string
does not end inside a directive. -/
theorem kprintf_stops_iff (k : KprintfCall) (fmt : CStr) (hfmt : fmt.At k.mem k.fmt) :
    (k.ReadsWithin fmt.bytes.length ↔ Complete fmt.bytes = true) ∧
      (k.EndsAt fmt.bytes.length ↔ Complete fmt.bytes = true) := by
  have htext : k.Spells 0 (fmt.bytes ++ [0]) := spells_of_bytesAt hfmt
  have hreach : k.Reaches {} (0 + fmt.bytes.length + if Complete fmt.bytes then 0 else 1) :=
    reaches_end hfmt.nul fmt.nul_free htext rfl
  rw [Nat.zero_add] at hreach
  by_cases hcomplete : Complete fmt.bytes = true
  · rw [if_pos hcomplete] at hreach
    obtain ⟨n, t, hrun, hpos⟩ := hreach
    have hnul : k.char t.pos = 0 := by
      rw [hpos]
      exact hfmt.nul
    have hends : k.EndsAt fmt.bytes.length := by
      refine ⟨n + 1, t.look, ?_, hpos⟩
      rw [kprintf, exec_add_of_next hrun, exec_succ_of_exit (round_nul hnul)]
    exact ⟨iff_of_true (hends.readsWithin hfmt.nul) hcomplete, iff_of_true hends hcomplete⟩
  · rw [if_neg hcomplete] at hreach
    exact ⟨iff_of_false (hreach.not_readsWithin hfmt.nul) hcomplete,
      iff_of_false (hreach.not_endsAt hfmt.nul) hcomplete⟩

/-- The call `kprintf(fmt)` for a format at `0x1000` with the bytes `rest` behind it. -/
def formatAt (fmt : CStr) (rest : List Byte) : KprintfCall where
  mem := overlay (fun _ => 0) 0x1000 (fmt.bytes ++ [0] ++ rest)
  fmt := 0x1000
  va := fun _ => 0

theorem formatAt_at (fmt : CStr) (rest : List Byte)
    (hlen : (fmt.bytes ++ [0] ++ rest).length ≤ 2 ^ 64) :
    fmt.At (formatAt fmt rest).mem (formatAt fmt rest).fmt :=
  (bytesAt_overlay _ _ hlen).append_left

/-- Directives that `kprintf` does not know are no obstacle: `"%q%lz"`. -/
theorem kprintf_stops_unknown :
    let fmt : CStr := ⟨chars "%q%lz", by decide⟩
    (formatAt fmt []).ReadsWithin 5 ∧ (formatAt fmt []).EndsAt 5 := by
  intro fmt
  have hcomplete : Complete fmt.bytes = true := by decide
  obtain ⟨hreads, hends⟩ :=
    kprintf_stops_iff (formatAt fmt []) fmt (formatAt_at fmt [] (by decide))
  exact ⟨hreads.mpr hcomplete, hends.mpr hcomplete⟩

/-- After the format `"%"` the call goes on with what lies behind the NUL, here the
string `"key"`: it prints the NUL as an unknown directive and then the string. -/
theorem kprintf_prints_beyond :
    let fmt : CStr := ⟨chars "%", by decide⟩
    let k := formatAt fmt (chars "key" ++ [0])
    fmt.At k.mem k.fmt ∧
      k.kprintf 5 = some (.exit { pos := 5
                                  args := 0
                                  out := [chr '%', 0] ++ chars "key"
                                  reads := [0, 1, 2, 3, 4, 5] }) ∧
      ¬ k.ReadsWithin 1 ∧ ¬ k.EndsAt 1 := by
  intro fmt k
  have hfmt : fmt.At k.mem k.fmt := formatAt_at fmt _ (by decide)
  have hrun : k.Reaches {} (1 + 1) :=
    ⟨1, ({} : Printing).after 2 0 [chr '%', 0], by decide +kernel, rfl⟩
  exact ⟨hfmt, by decide +kernel, hrun.not_readsWithin hfmt.nul, hrun.not_endsAt hfmt.nul⟩

end KprintfCall

end Myria.Util
