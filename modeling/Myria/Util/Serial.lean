import Myria.Lib.Uart
import Myria.Util.Klog

/-! The console: the driver of `serial.c` on its UART, from the first instructions of the
kernel on. The characters that `_start` writes go out without a look at the line status. -/
namespace Myria.Util.Serial

open Text ByteMem Ns16550

/-! ## The functions of `serial.c` and `_start` -/

def serialCom1Base : BitVec 16 := 0x3F8

def serialDataPort (base : BitVec 16) : BitVec 16 := base

def serialFifoCommandPort (base : BitVec 16) : BitVec 16 := base + 2

def serialLineCommandPort (base : BitVec 16) : BitVec 16 := base + 3

def serialModemCommandPort (base : BitVec 16) : BitVec 16 := base + 4

def serialLineEnableDlab : Byte := 0x80

variable (chip : Chip)

def outb (port : BitVec 16) (val : Byte) (s : Bus) : Option Bus :=
  out chip serialCom1Base port val s

def serialInit (s : Bus) : Option Bus := do
  let s ← outb chip (serialCom1Base + 1) 0x00 s
  let s ← outb chip (serialLineCommandPort serialCom1Base) serialLineEnableDlab s
  let s ← outb chip (serialDataPort serialCom1Base) 0x03 s
  let s ← outb chip (serialCom1Base + 1) 0x00 s
  let s ← outb chip (serialLineCommandPort serialCom1Base) 0x03 s
  let s ← outb chip (serialFifoCommandPort serialCom1Base) 0xC7 s
  outb chip (serialModemCommandPort serialCom1Base) 0x0B s

def serialIsTransmitFifoEmpty (u : Uart) : Byte := u.lineStatus &&& 0x20

/-- `serial_putc`. Each round of its loop is an access to the device. -/
def serialPutc (c : Byte) (u : Uart) : List Nat → Option Bus
  | [] => none
  | n :: later =>
    let u := u.send n
    if serialIsTransmitFifoEmpty u = 0 then serialPutc c u later
    else outb chip serialCom1Base c (u, later)

/-- `serial_puts`, for strings of less than `fuel` characters. -/
def serialPuts (m : Mem) : Nat → U64 → Bus → Option Bus
  | 0, _, _ => none
  | fuel + 1, str, s =>
    if m str = 0 then some s
    else (serialPutc chip (m str) s.1 s.2).bind (serialPuts m fuel (str + 1))

/-- What `_start` writes with its macro `DBG`. -/
def startMarks : List Byte := chars "ABXC0PV123ijW"

/-- `DBG`. -/
def dbg (s : Bus) (char : Byte) : Option Bus := outb chip 0x3F8 char s

/-- `_start`, up to the return of `serial_init`. -/
def start (s : Bus) : Option Bus := (startMarks.foldlM (dbg chip) s).bind (serialInit chip)

/-- The console from `_start` on, when the kernel then prints the strings at `strs`. -/
def console (m : Mem) (strs : List U64) (s : Bus) : Option Bus :=
  (start chip s).bind (strs.foldlM fun s str => serialPuts chip m (2 ^ 64) str s)

/-- The port as `serial_init` sets it up: 38400 baud, 8N1, with the FIFO on. -/
def settings (ier : Byte) : Settings where
  ier
  lcr := 0x03
  mcr := 0x0B
  divisorLow := 0x03
  divisorHigh := 0x00
  fifoOn := true

@[simp] theorem settings_dlab (ier : Byte) : (settings ier).dlab = false := by
  show BitVec.getLsbD 0x03 7 = false
  decide

/-- A list of characters through `serial_putc`. -/
def putChars (cs : List Byte) (s : Bus) : Option Bus :=
  cs.foldlM (fun s c => serialPutc chip c s.1 s.2) s

variable {chip} {c : Byte} {u u' : Uart} {later later' : List Nat} {s s' : Bus}

/-! ## What goes out -/

/-- `serial_putc` waits until all that was taken is sent, so its own character is never one
too many. -/
theorem serialPutc_delivers (hdlab : u.dlab = false)
    (h : serialPutc chip c u later = some s') :
    Delivers u s'.1 [c] ∧ s'.1.toSettings = u.toSettings ∧ s'.1.queue.length ≤ 1 := by
  induction later generalizing u with
  | nil => cases h
  | cons n later ih =>
    rw [serialPutc] at h
    split at h
    · obtain ⟨hdel, hset, hlen⟩ := ih (u := u.send n) hdlab h
      exact ⟨(delivers_send n).trans hdel, hset, hlen⟩
    · rename_i hempty
      rw [serialIsTransmitFifoEmpty, lineStatus_empty_iff, not_not] at hempty
      obtain _ | ⟨k, later⟩ := later
      · cases h
      · cases h
        have hqueue : ((u.send n).send k).queue = [] := by
          rw [Uart.send, hempty, List.drop_nil]
        have hwrite : ((u.send n).send k).write chip (serialCom1Base - serialCom1Base).toNat c =
            { (u.send n).send k with queue := [c] } := write_data_of_empty hdlab hqueue
        have hlast : Delivers ((u.send n).send k) { (u.send n).send k with queue := [c] } [c] :=
          ⟨[], (List.append_nil _).symm, by rw [hqueue]⟩
        rw [hwrite]
        exact ⟨((delivers_send n).trans (delivers_send k)).trans hlast, rfl, le_refl 1⟩

theorem putChars_delivers {cs : List Byte} (hdlab : s.1.dlab = false)
    (h : putChars chip cs s = some s') : Delivers s.1 s'.1 cs ∧
      s'.1.toSettings = s.1.toSettings := by
  induction cs generalizing s with
  | nil =>
    cases h
    exact ⟨Delivers.refl _, rfl⟩
  | cons c cs ih =>
    rw [putChars, List.foldlM_cons, Option.bind_eq_bind, Option.bind_eq_some_iff] at h
    obtain ⟨s₁, hputc, hrest⟩ := h
    obtain ⟨hfirst, hset, -⟩ := serialPutc_delivers hdlab hputc
    obtain ⟨hlast, hset'⟩ := ih (by rw [hset, hdlab]) hrest
    exact ⟨hfirst.trans hlast, hset'.trans hset⟩

/-- `serial_puts` writes what a scan of the memory finds before the NUL. -/
theorem serialPuts_eq (m : Mem) (fuel : Nat) (str : U64) (s : Bus) :
    serialPuts chip m fuel str s = (scan m fuel str).bind (putChars chip · s) := by
  induction fuel generalizing str s with
  | zero => rfl
  | succ fuel ih =>
    rw [serialPuts, scan]
    split
    · rfl
    · have hstep : ∀ cs, putChars chip (m str :: cs) s =
          (serialPutc chip (m str) s.1 s.2).bind (putChars chip cs) := fun cs => List.foldlM_cons ..
      rw [Option.bind_map]
      simp only [ih, Function.comp_def, hstep]
      rw [Option.bind_comm]

theorem passes_marks {cs : List Byte} (h : cs.foldlM (dbg chip) s = some s') :
    Passes s.1 s'.1 cs := by
  induction cs generalizing s with
  | nil =>
    cases h
    exact (Delivers.refl _).passes
  | cons c cs ih =>
    rw [List.foldlM_cons, Option.bind_eq_bind, Option.bind_eq_some_iff] at h
    obtain ⟨s₁, hc, hrest⟩ := h
    exact (passes_out hc).trans (ih hrest)

section Init

variable {b : Byte} {n : Nat}

theorem dlab_of_lcr {st : Settings} (h : st.lcr = serialLineEnableDlab) : st.dlab = true := by
  rw [Settings.dlab, h]
  decide

theorem outb_line_command : outb chip (serialLineCommandPort serialCom1Base) b (u, n :: later) =
    some ({ u.send n with lcr := b }, later) := rfl

theorem outb_data_dlab (h : u.dlab = true) :
    outb chip (serialDataPort serialCom1Base) b (u, n :: later) =
      some ({ u.send n with divisorLow := b }, later) :=
  congrArg (fun v => some (v, later)) (if_pos h)

theorem outb_next_dlab (h : u.dlab = true) :
    outb chip (serialCom1Base + 1) b (u, n :: later) =
      some ({ u.send n with divisorHigh := b }, later) :=
  congrArg (fun v => some (v, later)) (if_pos h)

theorem outb_fifo_command :
    outb chip (serialFifoCommandPort serialCom1Base) 0xC7 (u, n :: later) =
      some ({ u.send n with fifoOn := true, queue := [] }, later) := rfl

theorem outb_modem_command :
    outb chip (serialModemCommandPort serialCom1Base) b (u, n :: later) =
      some ({ u.send n with mcr := b }, later) := rfl

/-- The first write of `serial_init` switches the interrupts off, unless the divisor latch is
open. -/
theorem outb_first (chip : Chip) (u : Uart) (n : Nat) (later : List Nat) :
    ∃ st : Settings, st.ier = (if u.dlab then u.ier else 0) ∧
      outb chip (serialCom1Base + 1) 0x00 (u, n :: later) =
        some ({ u.send n with toSettings := st }, later) := by
  cases hdlab : u.dlab
  · exact ⟨{ u.toSettings with ier := 0 }, rfl,
      congrArg (fun v => some (v, later)) (if_neg (by simp [hdlab]))⟩
  · exact ⟨{ u.toSettings with divisorHigh := 0 }, rfl, outb_next_dlab hdlab⟩

/-- `serial_init` throws away what the transmitter has not sent by then. -/
theorem serialInit_eq (chip : Chip) (u : Uart) (n₁ n₂ n₃ n₄ n₅ n₆ n₇ : Nat) (later : List Nat) :
    ∃ n, serialInit chip (u, n₁ :: n₂ :: n₃ :: n₄ :: n₅ :: n₆ :: n₇ :: later) =
      some ({ settings (if u.dlab then u.ier else 0) with
        received := u.received, queue := [], line := u.line ++ u.queue.take n }, later) := by
  obtain ⟨st, hier, hfirst⟩ :=
    outb_first chip u n₁ (n₂ :: n₃ :: n₄ :: n₅ :: n₆ :: n₇ :: later)
  refine ⟨n₁ + n₂ + n₃ + n₄ + n₅ + n₆, ?_⟩
  simp only [serialInit, Option.bind_eq_bind, hfirst, Option.bind_some, outb_line_command,
    outb_data_dlab, outb_next_dlab, dlab_of_lcr, outb_fifo_command, outb_modem_command, Uart.send,
    settings, hier, List.take_add, List.drop_drop, List.take_nil, List.drop_nil, List.append_nil,
    List.append_assoc]

theorem serialInit_spec (h : serialInit chip s = some s') :
    (∃ n, s'.1 = { settings (if s.1.dlab then s.1.ier else 0) with
      received := s.1.received, queue := [], line := s.1.line ++ s.1.queue.take n }) ∧
      s.working ≤ s'.working + 7 := by
  obtain ⟨u, _ | ⟨n₁, _ | ⟨n₂, _ | ⟨n₃, _ | ⟨n₄, _ | ⟨n₅, _ | ⟨n₆, _ | ⟨n₇, later⟩⟩⟩⟩⟩⟩⟩⟩ := s
  iterate 7
    · cases h
  obtain ⟨n, hinit⟩ := serialInit_eq chip u n₁ n₂ n₃ n₄ n₅ n₆ n₇ later
  obtain rfl : _ = s' := Option.some.inj (hinit.symm.trans h)
  refine ⟨⟨n, rfl⟩, ?_⟩
  simp only [Bus.working, List.countP_cons]
  grind

theorem serialInit_returns (h : 7 ≤ s.working) : ∃ s', serialInit chip s = some s' := by
  have hlen : 7 ≤ s.2.length := h.trans List.countP_le_length
  obtain ⟨u, _ | ⟨n₁, _ | ⟨n₂, _ | ⟨n₃, _ | ⟨n₄, _ | ⟨n₅, _ | ⟨n₆, _ | ⟨n₇, later⟩⟩⟩⟩⟩⟩⟩⟩ := s
  iterate 7
    · simp at hlen
  obtain ⟨n, hinit⟩ := serialInit_eq chip u n₁ n₂ n₃ n₄ n₅ n₆ n₇ later
  exact ⟨_, hinit⟩

end Init

/-! ## The driver comes back -/

/-- With at most one character waiting, `serial_putc` needs the transmitter to work twice: to
get rid of that character, and to come to the write. -/
theorem serialPutc_returns (hlen : u.queue.length ≤ 1) (hwork : 2 ≤ Bus.working (u, later)) :
    ∃ s', serialPutc chip c u later = some s' ∧ Bus.working (u, later) ≤ s'.working + 2 := by
  induction later generalizing u with
  | nil => cases hwork
  | cons n later ih =>
    have hcount : Bus.working (u, n :: later) =
        Bus.working (u, later) + if 0 < n then 1 else 0 := by
      simp only [Bus.working, List.countP_cons, decide_eq_true_eq]
    rw [hcount] at hwork ⊢
    rw [serialPutc]
    split
    · rename_i hbusy
      rw [serialIsTransmitFifoEmpty, lineStatus_empty_iff] at hbusy
      -- a round that finds the character still there has found the transmitter idle
      have hn : ¬ 0 < n := by
        intro hn
        exact hbusy (List.drop_eq_nil_of_le (hlen.trans hn))
      rw [if_neg hn] at hwork ⊢
      exact ih (by rw [Uart.send, List.length_drop]; omega) hwork
    · have hlater : 1 ≤ Bus.working (u.send n, later) := by
        split at hwork
        · exact Nat.le_of_succ_le_succ hwork
        · exact Nat.le_of_succ_le hwork
      obtain ⟨s', hout, hcost⟩ := out_returns hlater serialCom1Base serialCom1Base c
      refine ⟨s', hout, ?_⟩
      change Bus.working (u, later) ≤ _ at hcost
      split <;> omega

/-- The console after `serial_init`, between two characters. -/
def Quiet (s : Bus) : Prop := s.1.dlab = false ∧ s.1.queue.length ≤ 1

theorem putChars_returns {cs : List Byte} (hquiet : Quiet s) (hwork : 2 * cs.length ≤ s.working) :
    ∃ s', putChars chip cs s = some s' := by
  have hchar : ∀ (s : Bus) (c : Byte), Quiet s → 2 ≤ s.working →
      ∃ s', serialPutc chip c s.1 s.2 = some s' ∧ Quiet s' ∧ s.working ≤ s'.working + 2 := by
    rintro s c ⟨hdlab, hlen⟩ hwork
    obtain ⟨s', hputc, hcost⟩ :
        ∃ s', serialPutc chip c s.1 s.2 = some s' ∧ s.working ≤ s'.working + 2 :=
      serialPutc_returns hlen hwork
    obtain ⟨-, hset, hlen'⟩ := serialPutc_delivers hdlab hputc
    exact ⟨s', hputc, ⟨by rw [hset, hdlab], hlen'⟩, hcost⟩
  obtain ⟨s', hrun, -, -⟩ := foldlM_returns hchar hquiet hwork
  exact ⟨s', hrun⟩

/-! ## From `_start` on -/

/-- The strings of a list of calls of `serial_puts`, one after the other. -/
theorem puts_eq {m : Mem} {strs : List U64} {texts : List CStr}
    (h : List.Forall₂ (fun str text => CStr.At m str text) strs texts) (s : Bus) :
    strs.foldlM (fun s str => serialPuts chip m (2 ^ 64) str s) s =
      putChars chip (texts.flatMap CStr.bytes) s := by
  induction h generalizing s with
  | nil => rfl
  | @cons str text strs texts hat _ ih =>
    rw [List.foldlM_cons, List.flatMap_cons, putChars, List.foldlM_append, serialPuts_eq,
      scan_of_bytesAt text.nul_free hat hat.length_lt]
    exact congrArg _ (funext ih)

/-- `DBG` leaves the interrupts and the divisor latch as they are. -/
theorem dbg_keeps {cs : List Byte} (h : cs.foldlM (dbg chip) s = some s') :
    s'.1.ier = s.1.ier ∧ s'.1.lcr = s.1.lcr := by
  induction cs generalizing s with
  | nil =>
    cases h
    exact ⟨rfl, rfl⟩
  | cons c cs ih =>
    rw [List.foldlM_cons, Option.bind_eq_bind, Option.bind_eq_some_iff] at h
    obtain ⟨s₁, hc, hrest⟩ := h
    obtain ⟨hier, hlcr⟩ := ih hrest
    obtain ⟨u, _ | ⟨n, later⟩⟩ := s
    · cases hc
    · cases hc
      rw [hier, hlcr]
      show ((u.send n).write chip 0 c).ier = _ ∧ ((u.send n).write chip 0 c).lcr = _
      rw [Uart.write]
      split <;> exact ⟨rfl, rfl⟩

/-- **Nothing of the kernel's output is lost.** From any state of the port and for any timing of
its transmitter: once `serial_init` has set up the line, the characters of every string go out
in order, once each and none too many. Before it come some of those that `_start` wrote and of
those that were waiting, in order. The calls all come back if the transmitter keeps working. -/
theorem console_exact {m : Mem} {strs : List U64} {texts : List CStr}
    (hstrs : List.Forall₂ (fun str text => CStr.At m str text) strs texts) (s : Bus) :
    (∀ s', console chip m strs s = some s' →
      s'.1.toSettings = settings (if s.1.dlab then s.1.ier else 0) ∧
      ∃ kept, kept.Sublist (s.1.queue ++ startMarks) ∧
        s'.1.line ++ s'.1.queue = s.1.line ++ kept ++ texts.flatMap CStr.bytes) ∧
    (20 + 2 * (texts.flatMap CStr.bytes).length ≤ s.working →
      ∃ s', console chip m strs s = some s') := by
  constructor
  · intro s' h
    rw [console, start, Option.bind_assoc, Option.bind_eq_some_iff] at h
    obtain ⟨s₁, hmarks, h⟩ := h
    rw [Option.bind_eq_some_iff] at h
    obtain ⟨s₂, hinit, hputs⟩ := h
    rw [puts_eq hstrs] at hputs
    obtain ⟨sent, hline, hqueue⟩ := passes_marks hmarks
    obtain ⟨hier, hlcr⟩ := dbg_keeps hmarks
    obtain ⟨⟨n, hs₂⟩, -⟩ := serialInit_spec hinit
    obtain ⟨hdel, hset⟩ := putChars_delivers (by rw [hs₂, settings_dlab]) hputs
    have hdlab : s₁.1.dlab = s.1.dlab := by rw [Settings.dlab, hlcr, Settings.dlab]
    refine ⟨?_, sent ++ s₁.1.queue.take n, ?_, ?_⟩
    · rw [hset, hs₂, hier, hdlab]
    · exact ((List.take_sublist n s₁.1.queue).append_left sent).trans hqueue
    · rw [hdel.total, hs₂, hline, List.append_nil, List.append_assoc s.1.line]
  · intro hwork
    have hmark : ∀ (s : Bus) (c : Byte), True → 1 ≤ s.working →
        ∃ s', dbg chip s c = some s' ∧ True ∧ s.working ≤ s'.working + 1 := by
      intro s c _ hwork
      obtain ⟨s', hout, hcost⟩ := out_returns hwork serialCom1Base 0x3F8 c
      exact ⟨s', hout, trivial, hcost⟩
    have hlen : startMarks.length = 13 := rfl
    have hmarks : 1 * startMarks.length ≤ s.working := by omega
    obtain ⟨s₁, hrun, -, hcost₁⟩ := foldlM_returns hmark trivial hmarks
    obtain ⟨s₂, hinit⟩ : ∃ s₂, serialInit chip s₁ = some s₂ := serialInit_returns (by omega)
    obtain ⟨⟨n, hs₂⟩, hcost₂⟩ := serialInit_spec hinit
    have hquiet : Quiet s₂ := by
      rw [Quiet, hs₂]
      exact ⟨settings_dlab _, Nat.zero_le 1⟩
    obtain ⟨s', hputs⟩ : ∃ s', putChars chip (texts.flatMap CStr.bytes) s₂ = some s' :=
      putChars_returns hquiet (by omega)
    refine ⟨s', ?_⟩
    rw [console, start, hrun, Option.bind_some, hinit, Option.bind_some, puts_eq hstrs, hputs]

/-- A port as the firmware may leave it, with the FIFO off and one byte waiting. -/
def firmwarePort : Uart where
  ier := 0x0F
  lcr := 0x03
  mcr := 0x00
  divisorLow := 0x01
  divisorHigh := 0x00
  fifoOn := false
  received := 0x60
  queue := [0x0A]
  line := []

def okText : CStr where
  bytes := chars "OK"
  nul_free := by decide

/-- The string `"OK"` goes out on such a port, with the transmitter sending one byte between
any two accesses. -/
theorem firmwarePort_console :
    ∃ s', console .dropNew (overlay (fun _ => 0) 0x1000 (okText.bytes ++ [0])) [0x1000]
      (firmwarePort, List.replicate 24 1) = some s' ∧
      ∃ kept, kept.Sublist (0x0A :: startMarks) ∧ s'.1.line ++ s'.1.queue = kept ++ chars "OK" := by
  have hat : okText.At (overlay (fun _ => 0) 0x1000 (okText.bytes ++ [0])) 0x1000 :=
    bytesAt_overlay _ _ (by decide)
  obtain ⟨hout, hback⟩ := console_exact (.cons hat .nil) (firmwarePort, List.replicate 24 1)
  obtain ⟨s', hrun⟩ := hback (by decide)
  obtain ⟨-, kept, hkept, htotal⟩ := hout s' hrun
  exact ⟨s', hrun, kept, hkept, htotal⟩

end Myria.Util.Serial
