import Myria.Util.KprintfFormat
import Myria.Util.Serial

/-! `panic` of `klog.c`, down to the port. It knows no directive but `%s`, and `klog.c` has the
driver of `serial.c` once more. -/
namespace Myria.Util.Serial

open Text ByteMem Ns16550

variable (chip : Chip) (m : Mem) (va : Nat → U64)

/-- The loop of `panic`, for less than `fuel` rounds. `args` counts the arguments taken. -/
def panicLoop : Nat → U64 → Nat → Bus → Option Bus
  | 0, _, _, _ => none
  | fuel + 1, fmt, args, s =>
    if m fmt = 0 then some s
    else if m fmt = chr '%' ∧ m (fmt + 1) = chr 's' then
      let str := va args
      (if str ≠ 0 then serialPuts chip m (2 ^ 64) str s else putChars chip (chars "(null)") s).bind
        (panicLoop fuel (fmt + 2) (args + 1))
    else (serialPutc chip (m fmt) s.1 s.2).bind (panicLoop fuel (fmt + 1) args)

/-- `panic`, up to its `hang`. -/
def panic (fmt : U64) (s : Bus) : Option Bus := do
  let s ← putChars chip (chars "\n[PANIC] ") s
  let s ← panicLoop chip m va (2 ^ 64) fmt 0 s
  putChars chip (chars "\n[PANIC] System halted.\n") s

/-- What a format says when its directives stand for `args`, if there are enough of them. -/
def panicText : List Byte → List (Option CStr) → Option (List Byte)
  | [], _ => some []
  | [c], _ => some [c]
  | c :: d :: cs, args =>
    if c = chr '%' ∧ d = chr 's' then
      args.head?.bind fun str => (panicText cs args.tail).map ((Item.s str).render ++ ·)
    else (panicText (d :: cs) args).map (c :: ·)

def panicMessage (text : List Byte) : List Byte :=
  chars "\n[PANIC] " ++ text ++ chars "\n[PANIC] System halted.\n"

variable {chip m va} {s s' : Bus} {cs text : List Byte} {args : List (Option CStr)}
  {p : U64} {n : Nat}

theorem putChars_append (cs cs' : List Byte) (s : Bus) :
    putChars chip (cs ++ cs') s = (putChars chip cs s).bind (putChars chip cs') := by
  rw [putChars, List.foldlM_append]
  rfl

/-- What the argument of a `%s` prints. -/
theorem puts_str {slot : U64} {str : Option CStr} (h : (Arg.str str).Holds m slot) (s : Bus) :
    (if slot ≠ 0 then serialPuts chip m (2 ^ 64) slot s else putChars chip (chars "(null)") s) =
      putChars chip (Item.s str).render s := by
  cases str with
  | none =>
    have hzero : slot = 0 := h
    rw [if_neg (not_not.mpr hzero)]
    rfl
  | some str =>
    rw [if_pos h.1, serialPuts_eq, scan_of_bytesAt str.nul_free h.2 h.2.length_lt]
    rfl

theorem putChars_cons (c : Byte) (cs : List Byte) (s : Bus) :
    putChars chip (c :: cs) s = (serialPutc chip c s.1 s.2).bind (putChars chip cs) :=
  List.foldlM_cons ..

/-- A round on a character that is no directive. -/
theorem panicLoop_literal {fuel : Nat} (hnul : m p ≠ 0)
    (hlit : ¬ (m p = chr '%' ∧ m (p + 1) = chr 's'))
    (hrest : ∀ s, panicLoop chip m va fuel (p + 1) n s = putChars chip text s) :
    panicLoop chip m va (fuel + 1) p n s = putChars chip (m p :: text) s := by
  rw [panicLoop, if_neg hnul, if_neg hlit, putChars_cons]
  exact congrArg _ (funext hrest)

/-- The loop prints what the format says, and looks at no byte behind its NUL. -/
theorem panicLoop_eq (hnul : 0 ∉ cs) (hfmt : BytesAt m p (cs ++ [0]))
    (hargs : Along (fun i str => (Arg.str str).Holds m (va i)) n args)
    (htext : panicText cs args = some text) {fuel : Nat} (hfuel : cs.length < fuel) :
    panicLoop chip m va fuel p n s = putChars chip text s := by
  induction fuel generalizing cs p args n text s with
  | zero => cases hfuel
  | succ fuel ih =>
    match cs, hnul, hfmt, htext, hfuel with
    | [], _, hfmt, htext, _ =>
      have hend : m p = 0 := by simpa using hfmt 0 0 rfl
      cases htext
      rw [panicLoop, if_pos hend]
      rfl
    | [c], hnul, hfmt, htext, hfuel =>
      have hc : m p = c := by simpa using hfmt 0 c rfl
      have hend : m (p + 1) = 0 := hfmt 1 0 rfl
      have hsplit : BytesAt m p ([c] ++ ([] ++ [0])) := hfmt
      cases htext
      rw [← hc]
      refine panicLoop_literal (hc ▸ fun h => hnul (h ▸ List.mem_singleton_self _)) ?_ fun s =>
        ih List.not_mem_nil hsplit.append_right hargs rfl (Nat.lt_of_succ_lt_succ hfuel)
      rw [hend]
      exact fun h => absurd h.2 (by decide)
    | c :: d :: cs, hnul, hfmt, htext, hfuel =>
      obtain ⟨hc0, hnul'⟩ := not_or.mp (mt List.mem_cons.mpr hnul)
      have hc : m p = c := by simpa using hfmt 0 c rfl
      have hd : m (p + 1) = d := hfmt 1 d rfl
      have hne : m p ≠ 0 := hc ▸ Ne.symm hc0
      rw [panicText] at htext
      split at htext
      · rename_i hdirective
        have hsplit : BytesAt m p ([c, d] ++ (cs ++ [0])) := hfmt
        have hnul'' : 0 ∉ cs := (not_or.mp (mt List.mem_cons.mpr hnul')).2
        cases args with
        | nil => cases htext
        | cons str args =>
          obtain ⟨harg, hargs'⟩ := along_cons.mp hargs
          obtain ⟨rest, hrest, rfl⟩ := Option.map_eq_some_iff.mp htext
          rw [panicLoop, if_neg hne, if_pos (by rw [hc, hd]; exact hdirective)]
          dsimp only
          rw [puts_str harg, putChars_append]
          exact congrArg _ (funext fun s =>
            ih hnul'' hsplit.append_right hargs' hrest
              (Nat.lt_of_succ_lt (Nat.lt_of_succ_lt_succ hfuel)))
      · rename_i hliteral
        have hsplit : BytesAt m p ([c] ++ (d :: cs ++ [0])) := hfmt
        obtain ⟨rest, hrest, rfl⟩ := Option.map_eq_some_iff.mp htext
        rw [← hc]
        refine panicLoop_literal hne (by rw [hc, hd]; exact hliteral) fun s =>
          ih hnul' hsplit.append_right hargs hrest (Nat.lt_of_succ_lt_succ hfuel)

/-- **The last words get out.** For every format, whatever characters and incomplete directives
are in it, and arguments for its `%s`: on a port that `serial_init` has set up, with any timing
of the transmitter, `panic` hands over its message character by character, in order and with
none lost, before it hangs. It comes to that if the transmitter keeps working. -/
theorem panic_message_delivered {fmt : CStr} (hfmt : fmt.At m p)
    (hargs : Along (fun i str => (Arg.str str).Holds m (va i)) 0 args)
    (htext : panicText fmt.bytes args = some text) (hquiet : Quiet s) :
    (∀ s', panic chip m va p s = some s' →
      Delivers s.1 s'.1 (panicMessage text) ∧ s'.1.toSettings = s.1.toSettings) ∧
    (2 * (panicMessage text).length ≤ s.working → ∃ s', panic chip m va p s = some s') := by
  have hpanic : panic chip m va p s = putChars chip (panicMessage text) s := by
    have hloop : ∀ s, panicLoop chip m va (2 ^ 64) p 0 s = putChars chip text s :=
      fun s => panicLoop_eq fmt.nul_free hfmt hargs htext hfmt.length_lt
    rw [panic, panicMessage, putChars_append, putChars_append, Option.bind_assoc]
    simp only [hloop]
    rfl
  rw [hpanic]
  exact ⟨fun s' h => putChars_delivers hquiet.1 h, putChars_returns hquiet⟩

/-- A `%s` with a lone `%` behind it. -/
def percentText : CStr where
  bytes := chars "%s%"
  nul_free := by decide

/-- The format and its argument `"OK"`, one behind the other. -/
def panicMem : Mem :=
  overlay (fun _ => 0) 0x1000 (percentText.bytes ++ [0] ++ (okText.bytes ++ [0]))

theorem panicMem_message :
    ∃ s', panic .dropNew panicMem (fun _ => 0x1004) 0x1000
        ({ firmwarePort with queue := [] }, List.replicate 80 1) = some s' ∧
      s'.1.line ++ s'.1.queue = panicMessage (chars "OK%") := by
  have hmem : BytesAt panicMem 0x1000 (percentText.bytes ++ [0] ++ (okText.bytes ++ [0])) :=
    bytesAt_overlay _ _ (by decide)
  have hstr : okText.At panicMem 0x1004 := hmem.append_right
  have harg : Along (fun _ str => (Arg.str str).Holds panicMem 0x1004) 0 [some okText] :=
    along_cons.mpr ⟨⟨by decide, hstr⟩, along_nil⟩
  have htext : panicText percentText.bytes [some okText] = some (chars "OK%") := by decide
  have hquiet : Quiet ({ firmwarePort with queue := [] }, List.replicate 80 1) :=
    ⟨by decide, by decide⟩
  have hlen : 2 * (panicMessage (chars "OK%")).length = 72 := by decide
  have hwork : Bus.working ({ firmwarePort with queue := [] }, List.replicate 80 1) = 80 := by
    decide
  obtain ⟨hout, hback⟩ :=
    panic_message_delivered hmem.append_left harg htext hquiet
  obtain ⟨s', hrun⟩ := hback (by rw [hlen, hwork]; decide)
  exact ⟨s', hrun, (hout s' hrun).1.total⟩

end Myria.Util.Serial
