import Mathlib.Data.List.Count
import Myria.Lib.Text
import Myria.Sched.Creation

/-! The system call layer of `syscalls.c`: the dispatcher with its table and its
statistics, and the handlers, which work on the scheduler of `thread_minimal.c`
and on the heap it shares with everyone. A call is described by what it prints
itself, what it reads through a pointer of the caller, and what it returns; the
messages of the scheduler and the heap are left out here as they are there. -/
namespace Myria.Syscall

open Mm Sched ByteMem

/-- What one call does. `result` is its value with the state it leaves, or `none`
when it never returns. -/
structure Reply (σ : Type) where
  /-- the texts passed to `serial_puts`, in order -/
  lines : List String
  /-- the addresses read through a pointer argument, in order -/
  reads : List U64
  result : Option (U64 × σ)

structure Args where
  arg1 : U64
  arg2 : U64
  arg3 : U64
  arg4 : U64
  arg5 : U64
  arg6 : U64

/-- `syscall_handler_t`, with the memory and the statics a handler can reach. -/
abbrev Handler := Mem → SchedState → Args → Reply SchedState

/-- `(u64)-1` -/
def errno : U64 := -1

/-! ## The handlers -/

def sysExit : Handler := fun _ _ _ =>
  { lines :=
      ["[SYSCALL] sys_exit called with code 99 - SUCCESS!\r\n",
        "[SYSCALL] User mode program exited successfully!\r\n",
        "=== M2 MILESTONE COMPLETE ===\r\n",
        "✓ User/kernel separation working\r\n",
        "✓ Page table isolation working\r\n",
        "✓ IRETQ user mode entry working\r\n",
        "✓ SYSCALL/SYSRET interface working\r\n",
        "System halting after successful user mode test.\r\n"]
    reads := []
    -- the loop around cli and hlt
    result := none }

/-- The loop of `sys_write` from byte `i` on, with `n` rounds left before the limit
of 256: the addresses it reads. It has no other effect. -/
def writeLoop (mem : Mem) (buf count : U64) : ℕ → ℕ → List U64
  | 0, _ => []
  | n + 1, i =>
    if i < count.toNat then
      let address := buf + BitVec.ofNat 64 i
      address :: if mem address = 0 then [] else writeLoop mem buf count n (i + 1)
    else []

def sysWrite : Handler := fun mem s args =>
  let fd := args.arg1
  let buf := args.arg2
  let count := args.arg3
  if fd = 1 ∨ fd = 2 then
    { lines := ["[SYSCALL] sys_write: ", "\r\n"]
      reads := writeLoop mem buf count 256 0
      -- the whole count, whatever the loop has seen
      result := some (count, s) }
  else { lines := [], reads := [], result := some (errno, s) }

@[simp] theorem sysWrite_result (mem : Mem) (s : SchedState) (args : Args) :
    (sysWrite mem s args).result =
      some (if args.arg1 = 1 ∨ args.arg1 = 2 then args.arg3 else errno, s) := by
  by_cases h : args.arg1 = 1 ∨ args.arg1 = 2 <;> simp only [sysWrite, h, if_true, if_false]

@[simp] theorem sysWrite_reads (mem : Mem) (s : SchedState) (args : Args) :
    (sysWrite mem s args).reads =
      if args.arg1 = 1 ∨ args.arg1 = 2 then writeLoop mem args.arg2 args.arg3 256 0 else [] := by
  by_cases h : args.arg1 = 1 ∨ args.arg1 = 2 <;> simp only [sysWrite, h, if_true, if_false]

def sysRead : Handler := fun _ s _ =>
  { lines := ["[SYSCALL] sys_read called (not fully implemented)\r\n"]
    reads := []
    result := some (0, s) }

/-- The number of the current thread, or the default `1`. -/
def currentPid (s : SchedState) : U64 :=
  match s.current with
  | some i => (s.threadTable i).tid.setWidth 64
  | none => 1

def sysGetpid : Handler := fun _ s _ =>
  { lines := ["[SYSCALL] sys_getpid called\r\n"]
    reads := []
    result := some (currentPid s, s) }

def sysSleep : Handler := fun _ s args =>
  { lines := ["[SYSCALL] sys_sleep called for ms: ", "\r\n"]
    reads := []
    -- one yield for every ten milliseconds, none of which waits
    result := some (0, schedYield^[(args.arg1 / 10).toNat] s) }

def sysYield : Handler := fun _ s _ =>
  { lines := ["[SYSCALL] sys_yield called\r\n"]
    reads := []
    result := some (0, schedYield s) }

def sysMalloc : Handler := fun _ s args =>
  { lines := ["[SYSCALL] sys_malloc called for size: ", "\r\n"]
    reads := []
    result := some
      ((kmalloc s.heap args.arg1).1, { s with heap := (kmalloc s.heap args.arg1).2 }) }

def sysFree : Handler := fun _ s args =>
  { lines := ["[SYSCALL] sys_free called\r\n"]
    reads := []
    result := some (0, { s with heap := kfree s.heap args.arg1 }) }

/-! ## The dispatcher -/

abbrev maxSyscalls : ℕ := 12

def syscallTable : Fin maxSyscalls → Option Handler
  | 0 => some sysExit
  | 1 => some sysWrite
  | 2 => some sysRead
  | 3 => none
  | 4 => none
  | 5 => none
  | 6 => none
  | 7 => some sysGetpid
  | 8 => some sysSleep
  | 9 => some sysYield
  | 10 => some sysMalloc
  | 11 => some sysFree

/-- The statics of `syscalls.c`, with those of the scheduler. -/
structure KernelState where
  sched : SchedState
  syscallCounts : Fin maxSyscalls → U64
  totalSyscalls : U64

def syscallInit (k : KernelState) : KernelState :=
  { k with syscallCounts := fun _ => 0, totalSyscalls := 0 }

/-- The statistics of one more call. -/
def KernelState.count (k : KernelState) (n : Fin maxSyscalls) : KernelState :=
  { k with
    syscallCounts := Function.update k.syscallCounts n (k.syscallCounts n + 1)
    totalSyscalls := k.totalSyscalls + 1 }

def numberLines (num : U64) : List String :=
  if num = 0 then ["0 (EXIT)"]
  else if num = 1 then ["1 (WRITE)"]
  else if num = 7 then ["7 (GETPID)"]
  else if num = 8 then ["8 (SLEEP)"]
  else if num = 9 then ["9 (YIELD)"]
  else if num = 10 then ["10 (MALLOC)"]
  else if num = 11 then ["11 (FREE)"]
  else
    ["UNKNOWN (",
      if 1000 < num then "VERY_LARGE"
      else if 100 < num then "LARGE"
      else if 50 < num then "MEDIUM"
      else "SMALL_UNKNOWN",
      ")"]

def receivedLines (num : U64) : List String :=
  "[SYSCALL] Received syscall number: " :: numberLines num ++ ["\r\n"]

def syscallDispatch (mem : Mem) (k : KernelState) (num : U64) (args : Args) : Reply KernelState :=
  if h : num.toNat < maxSyscalls then
    match syscallTable ⟨num.toNat, h⟩ with
    | none =>
      { lines := receivedLines num ++ ["[SYSCALL] Unimplemented system call\r\n"]
        reads := []
        result := some (errno, k) }
    | some handler =>
      let k := k.count ⟨num.toNat, h⟩
      let reply := handler mem k.sched args
      { lines := receivedLines num ++ reply.lines
        reads := reply.reads
        result := reply.result.map fun r => (r.1, { k with sched := r.2 }) }
  else
    { lines := receivedLines num ++ ["[SYSCALL] Invalid system call number\r\n"]
      reads := []
      result := some (errno, k) }

def syscallNames : Fin maxSyscalls → String
  | 0 => "exit"
  | 1 => "write"
  | 2 => "read"
  | 3 => "open"
  | 4 => "close"
  | 5 => "fork"
  | 6 => "execve"
  | 7 => "getpid"
  | 8 => "sleep"
  | 9 => "yield"
  | 10 => "malloc"
  | 11 => "free"

/-- What `syscall_print_stats` passes to `serial_puts`; no number is ever printed. -/
def syscallPrintStats (k : KernelState) : List String :=
  ["[SYSCALL] System Call Statistics:\r\n", "  Total system calls: ", "\r\n"] ++
    (List.finRange maxSyscalls).flatMap fun i =>
      if 0 < k.syscallCounts i then ["  ", syscallNames i, ": ", "\r\n"] else []

/-- The table entry a number selects, if it has a handler. -/
def served (num : U64) : Option (Fin maxSyscalls) :=
  if h : num.toNat < maxSyscalls then
    if (syscallTable ⟨num.toNat, h⟩).isSome then some ⟨num.toNat, h⟩ else none
  else none

theorem served_eq_some {num : U64} {n : Fin maxSyscalls} (h : served num = some n) :
    num.toNat = n ∧ ∃ handler, syscallTable n = some handler := by
  unfold served at h
  split at h
  · split at h
    · rename_i hsome
      cases Option.some.inj h
      exact ⟨rfl, Option.isSome_iff_exists.mp hsome⟩
    · cases h
  · cases h

/-- A number without a handler is answered with `-1`, and nothing else happens. -/
theorem dispatch_refused {num : U64} (h : served num = none) (mem : Mem) (k : KernelState)
    (args : Args) :
    (syscallDispatch mem k num args).result = some (errno, k) ∧
      (syscallDispatch mem k num args).reads = [] := by
  unfold served at h
  unfold syscallDispatch
  split at h
  · rename_i hlt
    rw [dif_pos hlt]
    cases htable : syscallTable ⟨num.toNat, hlt⟩ with
    | none => exact ⟨rfl, rfl⟩
    | some handler =>
      rw [htable] at h
      cases h
  · rename_i hlt
    rw [dif_neg hlt]
    exact ⟨rfl, rfl⟩

/-- A number with a handler is counted before the handler runs. -/
theorem dispatch_served (num : U64) {n : Fin maxSyscalls} {handler : Handler} (hnum : num.toNat = n)
    (h : syscallTable n = some handler) (mem : Mem) (k : KernelState) (args : Args) :
    (syscallDispatch mem k num args).result =
        (handler mem k.sched args).result.map (fun r => (r.1, { k.count n with sched := r.2 })) ∧
      (syscallDispatch mem k num args).reads = (handler mem k.sched args).reads ∧
      (syscallDispatch mem k num args).lines =
        receivedLines num ++ (handler mem k.sched args).lines := by
  have hlt : num.toNat < maxSyscalls := hnum ▸ n.isLt
  obtain rfl : ⟨num.toNat, hlt⟩ = n := Fin.ext hnum
  rw [syscallDispatch, dif_pos hlt, h]
  exact ⟨rfl, rfl, rfl⟩

theorem dispatch_getpid (mem : Mem) (k : KernelState) (args : Args) :
    (syscallDispatch mem k 7 args).result = some (currentPid k.sched, k.count 7) :=
  (dispatch_served 7 (n := 7) rfl rfl mem k args).1

theorem dispatch_sleep (mem : Mem) (k : KernelState) (args : Args) :
    (syscallDispatch mem k 8 args).result =
      some (0, { k.count 8 with sched := schedYield^[(args.arg1 / 10).toNat] k.sched }) :=
  (dispatch_served 8 (n := 8) rfl rfl mem k args).1

theorem dispatch_malloc (mem : Mem) (k : KernelState) (args : Args) :
    (syscallDispatch mem k 10 args).result =
      some ((kmalloc k.sched.heap args.arg1).1,
        { k.count 10 with
          sched := { k.sched with heap := (kmalloc k.sched.heap args.arg1).2 } }) :=
  (dispatch_served 10 (n := 10) rfl rfl mem k args).1

theorem dispatch_free (mem : Mem) (k : KernelState) (args : Args) :
    (syscallDispatch mem k 11 args).result = some (0, k.count 11) :=
  (dispatch_served 11 (n := 11) rfl rfl mem k args).1

/-! ## Reading through the caller's pointer -/

/-- `reads` are the first addresses from `buf` on, at most `limit`, and stop early
only right after a NUL. -/
structure ScansFrom (mem : Mem) (buf : U64) (limit : ℕ) (reads : List U64) : Prop where
  consecutive : reads = (List.range reads.length).map fun i => buf + BitVec.ofNat 64 i
  bounded : reads.length ≤ limit
  passed : ∀ i, i + 1 < reads.length → mem (buf + BitVec.ofNat 64 i) ≠ 0
  stopped : reads.length < limit →
    ∃ i, reads.length = i + 1 ∧ mem (buf + BitVec.ofNat 64 i) = 0

/-- The loop from byte `i` on reads `m` more bytes, the last of which is the NUL
unless a limit is reached. -/
theorem writeLoop_eq (mem : Mem) (buf count : U64) (n i : ℕ) :
    ∃ m, writeLoop mem buf count n i = (List.range' i m).map (fun j => buf + BitVec.ofNat 64 j) ∧
      m ≤ n ∧ i + m ≤ max i count.toNat ∧
      (∀ j, i ≤ j → j + 1 < i + m → mem (buf + BitVec.ofNat 64 j) ≠ 0) ∧
      (m < n → i + m < count.toNat →
        ∃ j, i + m = j + 1 ∧ i ≤ j ∧ mem (buf + BitVec.ofNat 64 j) = 0) := by
  induction n generalizing i with
  | zero => exact ⟨0, rfl, le_rfl, by omega, by omega, by omega⟩
  | succ n ih =>
    rw [writeLoop]
    by_cases hi : i < count.toNat
    · rw [if_pos hi]
      by_cases hnul : mem (buf + BitVec.ofNat 64 i) = 0
      · refine ⟨1, by simp [hnul], by omega, by omega, by omega, fun _ _ => ⟨i, rfl, le_rfl, hnul⟩⟩
      · obtain ⟨m, heq, hle, hcount, hpassed, hstopped⟩ := ih (i + 1)
        refine ⟨m + 1, ?_, by omega, by omega, ?_, ?_⟩
        · simp only [if_neg hnul, heq, List.range'_succ, List.map_cons]
        · intro j hij hj
          by_cases hji : j = i
          · rwa [hji]
          · exact hpassed j (by omega) (by omega)
        · intro hm hlt
          obtain ⟨j, hj, hij, hzero⟩ := hstopped (by omega) (by omega)
          exact ⟨j, by omega, by omega, hzero⟩
    · rw [if_neg hi]
      exact ⟨0, rfl, by omega, by omega, by omega, by omega⟩

theorem writeLoop_scansFrom (mem : Mem) (buf count : U64) :
    ScansFrom mem buf (min count.toNat 256) (writeLoop mem buf count 256 0) := by
  obtain ⟨m, heq, hle, hcount, hpassed, hstopped⟩ := writeLoop_eq mem buf count 256 0
  have hlen : (writeLoop mem buf count 256 0).length = m := by simp [heq]
  refine ⟨?_, ?_, ?_, ?_⟩
  · rw [hlen, heq, List.range_eq_range']
  · rw [hlen]
    omega
  · rw [hlen]
    exact fun i hi => hpassed i (Nat.zero_le _) (by omega)
  · rw [hlen]
    intro hlt
    obtain ⟨j, hj, -, hzero⟩ := hstopped (by omega) (by omega)
    exact ⟨j, by omega, hzero⟩

/-- The call that `user_write` makes: number and arguments. It never comes to that
when the string has no end. -/
def userWrite (mem : Mem) (msg : U64) : Option (U64 × Args) :=
  (Text.scan mem (2 ^ 64) msg).map fun cs => (1, ⟨1, msg, BitVec.ofNat 64 cs.length, 0, 0, 0⟩)

theorem handler_reads_eq_nil {n : Fin maxSyscalls} {handler : Handler}
    (h : syscallTable n = some handler) {mem : Mem} {s : SchedState} {args : Args}
    (hn : ¬ (n = 1 ∧ (args.arg1 = 1 ∨ args.arg1 = 2))) : (handler mem s args).reads = [] := by
  match n, h with
  | 1, h =>
    cases h
    rw [sysWrite_reads, if_neg fun hfd => hn ⟨rfl, hfd⟩]
  | 0, h | 2, h | 7, h | 8, h | 9, h | 10, h | 11, h => cases h; rfl

/-- A handler answers and prints the same whatever the caller's memory holds. -/
theorem handler_mem_irrelevant {n : Fin maxSyscalls} {handler : Handler}
    (h : syscallTable n = some handler) (mem mem' : Mem) (s : SchedState) (args : Args) :
    (handler mem s args).result = (handler mem' s args).result ∧
      (handler mem s args).lines = (handler mem' s args).lines := by
  match n, h with
  | 1, h =>
    cases h
    refine ⟨by rw [sysWrite_result, sysWrite_result], ?_⟩
    by_cases hfd : args.arg1 = 1 ∨ args.arg1 = 2 <;> simp only [sysWrite, hfd, if_true, if_false]
  | 0, h | 2, h | 7, h | 8, h | 9, h | 10, h | 11, h => cases h; exact ⟨rfl, rfl⟩

theorem dispatch_mem_irrelevant (mem mem' : Mem) (k : KernelState) (num : U64) (args : Args) :
    (syscallDispatch mem k num args).result = (syscallDispatch mem' k num args).result ∧
      (syscallDispatch mem k num args).lines = (syscallDispatch mem' k num args).lines := by
  unfold syscallDispatch
  split
  · rename_i hlt
    cases htable : syscallTable ⟨num.toNat, hlt⟩ with
    | none => exact ⟨rfl, rfl⟩
    | some handler =>
      obtain ⟨hresult, hlines⟩ := handler_mem_irrelevant htable mem mem' k.sched args
      exact ⟨congrArg (Option.map _) hresult, congrArg (receivedLines num ++ ·) hlines⟩
  · exact ⟨rfl, rfl⟩

theorem dispatch_write (mem : Mem) (k : KernelState) {args : Args}
    (hfd : args.arg1 = 1 ∨ args.arg1 = 2) :
    (syscallDispatch mem k 1 args).result = some (args.arg3, k.count 1) ∧
      (syscallDispatch mem k 1 args).reads = writeLoop mem args.arg2 args.arg3 256 0 := by
  obtain ⟨hresult, hreads, -⟩ := dispatch_served 1 (n := 1) rfl rfl mem k args
  rw [hresult, hreads, sysWrite_result, sysWrite_reads, if_pos hfd, if_pos hfd]
  exact ⟨rfl, rfl⟩

/-- A string is read up to its end or to 256 characters, and its NUL is not read when
its length is given. -/
theorem writeLoop_of_string {mem : Mem} {msg : U64} {str : Text.CStr} (h : str.At mem msg) :
    writeLoop mem msg (BitVec.ofNat 64 str.bytes.length) 256 0 =
      (List.range (min str.bytes.length 256)).map fun i => msg + BitVec.ofNat 64 i := by
  have hlen : (BitVec.ofNat 64 str.bytes.length).toNat = str.bytes.length := by
    rw [BitVec.toNat_ofNat, Nat.mod_eq_of_lt h.length_lt]
  have hscan := writeLoop_scansFrom mem msg (BitVec.ofNat 64 str.bytes.length)
  rw [hlen] at hscan
  -- it cannot stop early: the characters of a string are not NUL
  have hfull : (writeLoop mem msg (BitVec.ofNat 64 str.bytes.length) 256 0).length =
      min str.bytes.length 256 := by
    by_contra hne
    obtain ⟨i, hi, hzero⟩ := hscan.stopped (Nat.lt_of_le_of_ne hscan.bounded hne)
    have hbound := hscan.bounded
    have hlt : i < str.bytes.length := by omega
    rw [h.char (List.getElem?_eq_getElem hlt)] at hzero
    exact str.nul_free (hzero ▸ List.getElem_mem hlt)
  rw [hscan.consecutive, hfull]

/-- **What the kernel reads for its callers.** Only `SYS_WRITE` to the two standard
outputs follows a pointer, and it reads one byte after the other, up to a NUL, the
count or 256; it answers the count all the same. Nothing that is read shows in the
answer of any call or in what it prints. For `user_write` of a string these are its
characters, without the NUL, and the answer is its length. Every address can be read
in this model: the answers are those of calls whose reads do not fault. -/
theorem syscall_reads_bounded (mem : Mem) (k : KernelState) :
    (∀ num args, ¬ (num = 1 ∧ (args.arg1 = 1 ∨ args.arg1 = 2)) →
      (syscallDispatch mem k num args).reads = []) ∧
    (∀ args : Args, args.arg1 = 1 ∨ args.arg1 = 2 →
      ScansFrom mem args.arg2 (min args.arg3.toNat 256) (syscallDispatch mem k 1 args).reads ∧
        (syscallDispatch mem k 1 args).result = some (args.arg3, k.count 1)) ∧
    (∀ mem' num args,
      (syscallDispatch mem k num args).result = (syscallDispatch mem' k num args).result ∧
        (syscallDispatch mem k num args).lines = (syscallDispatch mem' k num args).lines) ∧
    ∀ (msg : U64) (str : Text.CStr), str.At mem msg →
      ∃ args, userWrite mem msg = some (1, args) ∧
        (syscallDispatch mem k 1 args).result =
          some (BitVec.ofNat 64 str.bytes.length, k.count 1) ∧
        (syscallDispatch mem k 1 args).reads =
          (List.range (min str.bytes.length 256)).map fun i => msg + BitVec.ofNat 64 i := by
  refine ⟨fun num args hnot => ?_, fun args hfd => ?_,
    fun mem' num args => dispatch_mem_irrelevant mem mem' k num args, fun msg str hat => ?_⟩
  · cases hserved : served num with
    | none => exact (dispatch_refused hserved mem k args).2
    | some n =>
      obtain ⟨hnum, handler, htable⟩ := served_eq_some hserved
      rw [(dispatch_served num hnum htable mem k args).2.1]
      refine handler_reads_eq_nil htable ?_
      rintro ⟨rfl, hfd⟩
      exact hnot ⟨BitVec.eq_of_toNat_eq hnum, hfd⟩
  · rw [(dispatch_write mem k hfd).2]
    exact ⟨writeLoop_scansFrom .., (dispatch_write mem k hfd).1⟩
  · have hscan := Text.scan_of_bytesAt str.nul_free hat hat.length_lt
    refine ⟨⟨1, msg, BitVec.ofNat 64 str.bytes.length, 0, 0, 0⟩, ?_, ?_, ?_⟩
    · rw [userWrite, hscan]
      rfl
    · exact (dispatch_write mem k (.inl rfl)).1
    · rw [(dispatch_write mem k (.inl rfl)).2]
      exact writeLoop_of_string hat

/-- A string of one character: it is read, its NUL is not. -/
theorem syscall_reads_one_character :
    ∃ args, userWrite (write8 (fun _ => 0) 0x10000 0x48) 0x10000 = some (1, args) ∧
      (syscallDispatch (write8 (fun _ => 0) 0x10000 0x48) ⟨.bss, fun _ => 0, 0⟩ 1 args).reads =
        [0x10000] := by
  have hat : Text.CStr.At (write8 (fun _ => 0) 0x10000 0x48) 0x10000 ⟨[0x48], by decide⟩ := by
    intro j b hb
    match j, hb with
    | 0, hb => cases hb; decide
    | 1, hb => cases hb; decide
  obtain ⟨args, hcall, -, hreads⟩ :=
    (syscall_reads_bounded (write8 (fun _ => 0) 0x10000 0x48) ⟨.bss, fun _ => 0, 0⟩).2.2.2 _ _ hat
  exact ⟨args, hcall, hreads⟩

end Myria.Syscall
