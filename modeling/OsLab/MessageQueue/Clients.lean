import Mathlib.Data.List.TakeWhile
import OsLab.MessageQueue.Model

/-!
# The programs `3lab/dev/write.c` and `3lab/dev/read.c`

Any number of processes run the two programs on the device. A process makes its calls one
after the other, and what it asks next depends on what its program has done so far: `Proc.call`
is the call a program comes to, `Proc.resume` what it does until the next one. `System.step`
takes one statement of one process, in its program or inside a call.

* Of a buffer only the string in it is kept, the bytes before the first NUL. `strlen`, `printf`
  and `strcmp` look at no others.
* The string in the buffer of a writer before the first line is a parameter, since the source
  leaves the buffer uninitialised.
* The programs install no signal handlers. A call that ends with `-ERESTARTSYS` is made again.
* A process that is killed, and the texts the programs print besides the messages, are left out.
-/

set_option autoImplicit false

namespace OsLab.MessageQueue

/-! ## Strings -/

def newline : UInt8 := 10

/-- The string at the front of some bytes. -/
def cString (bytes : List UInt8) : List UInt8 := bytes.takeWhile (· ≠ 0)

/-- A string in an array of the given size. -/
structure Buffer (size : Nat) where
  bytes : List UInt8
  noNul : 0 ∉ bytes
  fits : bytes.length < size

/-- The bytes `fgets` stores when there is room for `n`: it stops behind a newline. -/
def getLine : Nat → List UInt8 → List UInt8
  | 0, _ => []
  | _ + 1, [] => []
  | n + 1, b :: rest => if b = newline then [b] else b :: getLine n rest

theorem getLine_length_le (n : Nat) (stdin : List UInt8) : (getLine n stdin).length ≤ n := by
  induction n generalizing stdin with
  | zero => exact Nat.le_refl 0
  | succ n ih =>
      cases stdin with
      | nil => exact Nat.zero_le _
      | cons b rest =>
          have later := ih rest
          unfold getLine
          split <;> simp only [List.length_cons, List.length_nil] <;> omega

theorem zero_notMem_cString (bytes : List UInt8) : 0 ∉ cString bytes := by
  intro member
  simpa using List.mem_takeWhile_imp member

/-- The line is stored with a NUL behind it. -/
def Buffer.ofLine {size : Nat} (nonempty : 0 < size) (stdin : List UInt8) : Buffer size where
  bytes := cString (getLine (size - 1) stdin)
  noNul := zero_notMem_cString _
  fits := by
    have short := getLine_length_le (size - 1) stdin
    have shorter := (List.takeWhile_sublist (p := (· ≠ 0))
      (l := getLine (size - 1) stdin)).length_le
    unfold cString
    omega

/-- `fgets(buffer, sizeof(buffer), stdin)`: the buffer afterwards, and what is left of the input.
At the end of the input the buffer stays as it is. -/
def fgets {size : Nat} (nonempty : 0 < size) (stdin : List UInt8) (buffer : Buffer size) :
    Buffer size × List UInt8 :=
  if stdin = [] then (buffer, [])
  else (.ofLine nonempty stdin, stdin.drop (getLine (size - 1) stdin).length)

/-! ## Programs -/

/-- The size of `buffer` and of `num`. -/
def bufferSize : Nat := 1024

/-- What a process runs. -/
inductive Program where
  /-- `write.c` with its standard input, and the string that is in the buffer at first. -/
  | write (stdin : List UInt8) (buffer : Buffer bufferSize)
  | read

/-- Where a process is, always at a call. A writer records its earlier writes, a reader what it
printed, each with the result of the call. -/
inductive Proc where
  | writeOpen (stdin : List UInt8) (buffer : Buffer bufferSize)
  | writeLoop (stdin : List UInt8) (buffer : Buffer bufferSize) (written : List (List UInt8 × Int))
  | writeFailed
  | readOpen
  | readLoop (printed : List (List UInt8 × Int))
  | readClose (printed : List (List UInt8 × Int))
  | readEnd (printed : List (List UInt8 × Int))

def Program.start : Program → Proc
  | .write stdin buffer => .writeOpen stdin buffer
  | .read => .readOpen

/-- `write(fd, buffer, strlen(buffer))`. -/
def Buffer.args {size : Nat} (buffer : Buffer size) : WriteArgs :=
  ⟨false, buffer.bytes.length, fun k => buffer.bytes.getD k 0⟩

/-- The call a process makes next. -/
def Proc.call : Proc → Option Call
  | .writeOpen _ _ | .readOpen => some .m2mOpen
  | .writeLoop _ buffer _ => some (.m2mWrite buffer.args)
  | .readLoop _ => some (.m2mRead ⟨false, bufferSize⟩)
  | .readClose _ => some .m2mRelease
  | .writeFailed | .readEnd _ => none

/-- `"quit"`. -/
def quit : List UInt8 := [0x71, 0x75, 0x69, 0x74]

/-- What the program does between the result of a call and the next call. A read that fails
leaves `num` as it was cleared. -/
def Proc.resume (p : Proc) (ret : Int) (delivered : List UInt8) : Proc :=
  if ret = -erestartsys then p
  else
    match p with
    | .writeOpen stdin buffer =>
        if ret < 0 then .writeFailed
        else
          let (line, rest) := fgets (by decide) stdin buffer
          .writeLoop rest line []
    | .writeLoop stdin buffer written =>
        let (line, rest) := fgets (by decide) stdin buffer
        .writeLoop rest line (written ++ [(buffer.bytes, ret)])
    | .readOpen => if ret < 0 then .readEnd [] else .readLoop []
    | .readLoop printed =>
        let num := if ret < 0 then [] else cString delivered
        if num = quit then .readClose (printed ++ [(num, ret)])
        else .readLoop (printed ++ [(num, ret)])
    | .readClose printed => .readEnd printed
    | p => p

/-- What a reader has printed, with the results of the reads. -/
def Proc.printed : Proc → List (List UInt8 × Int)
  | .readLoop printed | .readClose printed | .readEnd printed => printed
  | _ => []

/-- The strings of the writes that ended, with their results. -/
def Proc.written : Proc → List (List UInt8 × Int)
  | .writeLoop _ _ written => written
  | _ => []

/-- The string of the write a writer is at. -/
def Proc.writing : Proc → List (List UInt8)
  | .writeLoop _ buffer _ => [buffer.bytes]
  | _ => []

/-! ## The system -/

variable {ι : Type}

/-- The device and the processes. -/
structure System (ι : Type) where
  device : State ι
  proc : ι → Proc

/-- The module is loaded, and every process is at the start of its program. -/
def System.start (programs : ι → Program) : System ι where
  device := m2mInit
  proc i := (programs i).start

variable [DecidableEq ι] [KernelMemory]

/-- One statement of process `i`. -/
def System.step (s : System ι) (i : ι) (choice : Choice) : Option (System ι) :=
  match (s.device.client i).pc with
  | .idle =>
      match (s.proc i).call with
      | none => none
      | some c => (MessageQueue.step s.device i (.call c)).map fun device => ⟨device, s.proc⟩
  | .returning _ ret delivered =>
      (MessageQueue.step s.device i choice).map fun device =>
        ⟨device, fun j => if j = i then (s.proc i).resume ret delivered else s.proc j⟩
  | _ => (MessageQueue.step s.device i choice).map fun device => ⟨device, s.proc⟩

/-- The statements of all processes, in any order. -/
def System.Step (s : System ι) (a : ι × Choice) (t : System ι) : Prop :=
  s.step a.1 a.2 = some t

/-- The states of the device and the processes. -/
abbrev System.ReachableState (programs : ι → Program) : System ι → Prop :=
  Foundation.Reachable (System.Step (ι := ι)) (System.start programs)

end OsLab.MessageQueue
