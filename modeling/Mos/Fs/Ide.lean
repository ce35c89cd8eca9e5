import Mos.Lib.Run
import Mos.Kern.DoSyscall
import Mos.Fs.OpenTable

/-!
# The disk driver of the two file servers

`ide_read` and `ide_write` of `fs/ide.c`, which the native server calls for disk 0 and the FAT32
server for disk 1. A sector is transferred by five system calls on the registers and the buffer of
one device. Both servers can be preempted between two of them, so each function is a machine that
makes one system call at a time.
-/

namespace Mos

/-! ## The device -/

/-- `BY2SECT`. -/
def by2sect : Nat := 512

/-- `DEV_DISK_ADDRESS`. -/
def devDiskAddress : Word := 0x13000000
/-- `DEV_DISK_OFFSET`. -/
def devDiskOffset : Word := 0x0000
/-- `DEV_DISK_ID`. -/
def devDiskId : Word := 0x0010
/-- `DEV_DISK_START_OPERATION`. -/
def devDiskStartOperation : Word := 0x0020
/-- `DEV_DISK_STATUS`. -/
def devDiskStatus : Word := 0x0030
/-- `DEV_DISK_BUFFER`. -/
def devDiskBuffer : Word := 0x4000

/-- `DEV_DISK_OPERATION_READ` and `DEV_DISK_OPERATION_WRITE`. -/
inductive DiskOp where
  | read
  | write
deriving DecidableEq

/-- The device: its registers, its buffer and the disks behind it, as bytes. -/
structure IdeDev where
  id : Word
  offset : Word
  status : Word
  buffer : Nat → Byte
  disks : Word → Nat → Byte

/-- The 512 bytes of a disk from `offset` on. -/
def readSector (disk : Nat → Byte) (offset : Nat) : Nat → Byte := fun j => disk (offset + j)

/-- A disk with 512 bytes replaced. -/
def writeSector (disk : Nat → Byte) (offset : Nat) (buffer : Nat → Byte) : Nat → Byte := fun a =>
  if offset ≤ a ∧ a < offset + by2sect then buffer (a - offset) else disk a

/-- A store to the register `DEV_DISK_START_OPERATION`. -/
def IdeDev.startOperation (dev : IdeDev) : DiskOp → IdeDev
  | .read => { dev with
      buffer := readSector (dev.disks dev.id) dev.offset.toNat, status := 1 }
  | .write => { dev with
      disks := Function.update dev.disks dev.id
        (writeSector (dev.disks dev.id) dev.offset.toNat dev.buffer), status := 1 }

/-! ## The driver -/

/-- The arguments of a call of `ide_read` (`op` is `.read`; the data goes to `dst`) or of
`ide_write`. -/
structure IdeCall where
  op : DiskOp
  secno : Word
  nsecs : Word
  src : Nat → Byte

/-- `begin`. -/
def IdeCall.begin (c : IdeCall) : Word := c.secno * BitVec.ofNat 32 by2sect

/-- `end`. -/
def IdeCall.end' (c : IdeCall) : Word := c.begin + c.nsecs * BitVec.ofNat 32 by2sect

/-- The system call that comes next. -/
inductive IdePc where
  | ret
  | id
  | offset
  | buffer
  | start
  | status
  | fetch
  | panicked
deriving DecidableEq

/-- A server in a call of the driver; `dst` is the destination of `ide_read`. -/
structure IdeEnv where
  call : IdeCall
  off : Word
  pc : IdePc
  dst : Nat → Byte

/-- The head of the loop, `begin + off < end`. -/
def IdeEnv.head (env : IdeEnv) : IdeEnv :=
  { env with pc := if env.call.begin + env.off < env.call.end' then .id else .ret }

/-- `panic_on` of a system call on `len` bytes of the device's register `reg`. -/
def accessDev (env : IdeEnv) (dev : IdeDev) (reg len : Word) (next : IdeEnv × IdeDev) :
    IdeEnv × IdeDev :=
  if isDevRange (devDiskAddress + reg) len then next else ({ env with pc := .panicked }, dev)

/-- One system call of `ide_read(diskno, …)`. -/
def ideRead (diskno : Word) (env : IdeEnv) (dev : IdeDev) : Option (IdeEnv × IdeDev) :=
  match env.pc with
  | .id => some <| accessDev env dev devDiskId 4
      ({ env with pc := .offset }, { dev with id := diskno })
  | .offset => some <| accessDev env dev devDiskOffset 4
      ({ env with pc := .start }, { dev with offset := env.call.begin + env.off })
  | .start => some <| accessDev env dev devDiskStartOperation 4
      ({ env with pc := .status }, dev.startOperation .read)
  | .status => some <| accessDev env dev devDiskStatus 4
      ({ env with pc := if dev.status = 0 then .panicked else .fetch }, dev)
  | .fetch => some <| accessDev env dev devDiskBuffer (BitVec.ofNat 32 by2sect)
      (IdeEnv.head { env with
        dst := writeSector env.dst env.off.toNat dev.buffer,
        off := env.off + BitVec.ofNat 32 by2sect }, dev)
  | _ => none

/-- One system call of `ide_write(diskno, …)`. -/
def ideWrite (diskno : Word) (env : IdeEnv) (dev : IdeDev) : Option (IdeEnv × IdeDev) :=
  match env.pc with
  | .id => some <| accessDev env dev devDiskId 4
      ({ env with pc := .offset }, { dev with id := diskno })
  | .offset => some <| accessDev env dev devDiskOffset 4
      ({ env with pc := .buffer }, { dev with offset := env.call.begin + env.off })
  | .buffer => some <| accessDev env dev devDiskBuffer (BitVec.ofNat 32 by2sect)
      ({ env with pc := .start },
        { dev with buffer := readSector env.call.src env.off.toNat })
  | .start => some <| accessDev env dev devDiskStartOperation 4
      ({ env with pc := .status }, dev.startOperation .write)
  | .status => some <| accessDev env dev devDiskStatus 4
      (if dev.status = 0 then { env with pc := .panicked }
        else IdeEnv.head { env with off := env.off + BitVec.ofNat 32 by2sect }, dev)
  | _ => none

/-- One system call of whichever function the server is in. -/
def ideStep (diskno : Word) (env : IdeEnv) (dev : IdeDev) : Option (IdeEnv × IdeDev) :=
  match env.call.op with
  | .read => ideRead diskno env dev
  | .write => ideWrite diskno env dev

/-! ## The two servers together -/

/-- The disk that a server calls the driver for. -/
def FileServer.diskno : FileServer → Word
  | serv => 0
  | fatserv => 1

/-- The other server. -/
def FileServer.other : FileServer → FileServer
  | serv => fatserv
  | fatserv => serv

/-- The device and the two servers. -/
structure IdeSys where
  dev : IdeDev
  env : FileServer → IdeEnv
  /-- History variable: the server's disk as it was when its present call began. -/
  before : FileServer → Nat → Byte

/-- What can happen next: a server calls the driver, or makes its next system call. -/
inductive IdeAct where
  | call (srv : FileServer) (c : IdeCall)
  | step (srv : FileServer)

/-- The disk of a server. -/
def IdeSys.disk (s : IdeSys) (srv : FileServer) : Nat → Byte := s.dev.disks srv.diskno

/-- One step, where it is possible. -/
def IdeSys.step (s : IdeSys) : IdeAct → Option IdeSys
  | .call srv c =>
    if (s.env srv).pc = .ret then
      some { s with
        env := Function.update s.env srv
          (IdeEnv.head { call := c, off := 0, pc := .ret, dst := (s.env srv).dst }),
        before := Function.update s.before srv (s.disk srv) }
    else none
  | .step srv => (ideStep srv.diskno (s.env srv) s.dev).map fun (env, dev) =>
      { s with env := Function.update s.env srv env, dev := dev }

/-- The servers before their first calls. -/
def IdeSys.start (dev : IdeDev) : IdeSys :=
  { dev := dev,
    env := fun _ => { call := { op := .read, secno := 0, nsecs := 0, src := fun _ => 0 },
                      off := 0, pc := .ret, dst := fun _ => 0 },
    before := fun srv => dev.disks srv.diskno }

/-- The calls of a server and its disk belong together. During a read the disk stays as it was, and
at the end the destination holds its bytes; during a write it only changes in the sectors of the call,
and at the end these hold the source's bytes. -/
def IdeSys.Isolated (s : IdeSys) (srv : FileServer) : Prop :=
  let env := s.env srv
  let c := env.call
  env.pc ≠ .panicked ∧
  match c.op with
  | .read => s.disk srv = s.before srv ∧
      (env.pc = .ret → ∀ a < c.nsecs.toNat * by2sect,
        env.dst a = s.disk srv (c.secno.toNat * by2sect + a))
  | .write =>
      (∀ a, (a < c.secno.toNat * by2sect ∨ (c.secno.toNat + c.nsecs.toNat) * by2sect ≤ a) →
        s.disk srv a = s.before srv a) ∧
      (env.pc = .ret → ∀ a < c.nsecs.toNat * by2sect,
        s.disk srv (c.secno.toNat * by2sect + a) = c.src a)

end Mos
