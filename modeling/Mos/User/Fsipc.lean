import Mos.Kern.SentPage
import Mos.Kern.EnvIds
import Mos.Kern.UserAccess

/-!
# `fsipc`, `serve` and the system calls between them

A client sends a request with `ipc_send` and waits for the reply with `ipc_recv`; the server waits for a
request, works on it, sends the reply and waits again. Both sides have one mailbox each, and any env may
run between two system calls. `Rpc` is the kernel together with the places at which the envs are in
their programs. Every step is one system call of the env that runs, or a timer interrupt, or a step in
user mode.
-/

namespace Mos

open Lib Prog Function

/-- `REQVA`. -/
def reqva : Word := 0x0ffff000

/-- The request codes `FSREQ_OPEN` to `FSREQ_SYNC`. -/
def IsFsreq (req : Word) : Prop := 1 ≤ req.toNat ∧ req.toNat ≤ 7

/-- Where a client is in `fsipc(type, fsreq, dstva, …)`. -/
inductive ClientPc where
  | out
  /-- In `ipc_send`, before `syscall_ipc_try_send`. -/
  | send (type fsreq dstva : Word)
  /-- In `ipc_send`, before `syscall_yield`. -/
  | spin (type fsreq dstva : Word)
  /-- In `ipc_recv`, before `syscall_ipc_recv`. -/
  | recv (dstva : Word)
  /-- In `ipc_recv`, at `syscall_ipc_recv` and after it. -/
  | wait

/-- Where the server is in the loop of `serve`. -/
inductive ServerPc where
  | recv
  | wait
  /-- In one of the functions `serve_open`, …, before the reply. -/
  | handle (whom req : Word)
  /-- In `ipc_send`, before `syscall_ipc_try_send`. -/
  | send (whom val srcva perm : Word)
  /-- In `ipc_send`, before `syscall_yield`. -/
  | spin (whom val srcva perm : Word)
  /-- Before `syscall_mem_unmap(0, REQVA)`. -/
  | unmap

/-- What happens to the requests. Envs are named by their ids. -/
inductive RpcEvent where
  /-- The request `req` of the env `id` was sent, with the frame `pp`. -/
  | sent (id req : Word) (pp : Nat)
  /-- The server begins to handle a request. -/
  | taken (id req : Word)
  /-- The server has computed the value of the reply. -/
  | computed (id val : Word)
  | replied (id val : Word)
  /-- `fsipc` returns. -/
  | returned (id val : Word)

def RpcEvent.id : RpcEvent → Word
  | .sent id _ _ => id
  | .taken id _ => id
  | .computed id _ => id
  | .replied id _ => id
  | .returned id _ => id

/-- The frame that an env maps at `va`. -/
def Kernel.frameAt (k : Kernel) (e : EnvPtr) (va : Word) : Option Nat :=
  (k.vm.leaf e (ppn va)).map ppn

/-- The kernel, the places in the programs, and what has happened, the latest last. -/
structure Rpc where
  k : Kernel
  client : EnvPtr → ClientPc
  server : ServerPc
  log : List RpcEvent

/-- One operation that keeps the kernel on its way. -/
structure Goes (op : Op) (k k' : Kernel) : Prop where
  step : Step op k k'
  sane : op.Sane k
  bounded : k'.vm.Bounded

/-- What an env does besides the calls of `fsipc` and `serve`: it manages memory, but not the page at
`REQVA` of the server. -/
def Op.Local (srv : EnvPtr) (k : Kernel) : Op → Prop
  | .yield => True
  | .tlbRefill _ _ => True
  | .memAlloc envid va _ => ∀ e, envid2env envid true k = .ret e k → ¬(e = srv ∧ ppn va = ppn reqva)
  | .memMap _ _ dstid dstva _ =>
    ∀ e, envid2env dstid true k = .ret e k → ¬(e = srv ∧ ppn dstva = ppn reqva)
  | .memUnmap envid va => ∀ e, envid2env envid true k = .ret e k → ¬(e = srv ∧ ppn va = ppn reqva)
  | .setTlbModEntry _ _ => True
  | .trap _ => True
  | .store _ _ => True
  | _ => False

/-- One step. The client calls are made by the env that runs, if it is not the server `srv`. -/
inductive RpcStep (srv : EnvPtr) : Rpc → Rpc → Prop where
  | timer {s : Rpc} {k' : Kernel} (h : Goes .timer s.k k') : RpcStep srv s { s with k := k' }
  | evict {s : Rpc} (tlb : List TlbEntry) (hsub : tlb ⊆ s.k.tlb) :
      RpcStep srv s { s with k := { s.k with tlb := tlb } }
  | work {s : Rpc} {e : EnvPtr} {op : Op} {k' : Kernel} (hc : s.k.curenv = some e)
      (hop : op.Local srv s.k) (h : Goes op s.k k') : RpcStep srv s { s with k := k' }
  | call {s : Rpc} {c : EnvPtr} (hc : s.k.curenv = some c) (hne : c ≠ srv)
      (hpc : s.client c = .out) (type fsreq dstva : Word) (htype : IsFsreq type) :
      RpcStep srv s { s with client := update s.client c (.send type fsreq dstva) }
  /-- The request carries its page, and there is memory to map it. -/
  | request {s : Rpc} {c : EnvPtr} {type fsreq dstva : Word} {r : SysRet} {k' : Kernel} {pp : Nat}
      (hc : s.k.curenv = some c) (hne : c ≠ srv) (hpc : s.client c = .send type fsreq dstva)
      (hret : sysIpcTrySend (s.k.envs srv).envId type fsreq pteD s.k = .ret r k')
      (hpage : s.k.Sends c fsreq pp) (hroom : s.k.Room srv (s.k.envs srv).envIpcDstva)
      (hbound : k'.vm.Bounded) :
      RpcStep srv s { s with
        k := k'
        client := update s.client c (.recv dstva)
        log := s.log ++ [.sent (s.k.envs c).envId type pp] }
  | refused {s : Rpc} {c : EnvPtr} {type fsreq dstva : Word} {k' : Kernel}
      (hc : s.k.curenv = some c) (hne : c ≠ srv) (hpc : s.client c = .send type fsreq dstva)
      (herr : sysIpcTrySend (s.k.envs srv).envId type fsreq pteD s.k = .err .ipcNotRecv k') :
      RpcStep srv s { s with k := k', client := update s.client c (.spin type fsreq dstva) }
  | retry {s : Rpc} {c : EnvPtr} {type fsreq dstva : Word} {k' : Kernel} (hc : s.k.curenv = some c)
      (hne : c ≠ srv) (hpc : s.client c = .spin type fsreq dstva) (h : Goes .yield s.k k') :
      RpcStep srv s { s with k := k', client := update s.client c (.send type fsreq dstva) }
  | await {s : Rpc} {c : EnvPtr} {dstva : Word} {k' : Kernel} (hc : s.k.curenv = some c)
      (hne : c ≠ srv) (hpc : s.client c = .recv dstva)
      (hret : sysIpcRecv dstva s.k = .ret .switched k') (hbound : k'.vm.Bounded) :
      RpcStep srv s { s with k := k', client := update s.client c .wait }
  /-- The client runs again and reads `env->env_ipc_value`. -/
  | finish {s : Rpc} {c : EnvPtr} (hc : s.k.curenv = some c) (hne : c ≠ srv)
      (hpc : s.client c = .wait) :
      RpcStep srv s { s with
        client := update s.client c .out
        log := s.log ++ [.returned (s.k.envs c).envId (s.k.envs c).envIpcValue] }
  | listen {s : Rpc} {k' : Kernel} (hc : s.k.curenv = some srv) (hpc : s.server = .recv)
      (hret : sysIpcRecv reqva s.k = .ret .switched k') (hbound : k'.vm.Bounded) :
      RpcStep srv s { s with k := k', server := .wait }
  /-- The server runs again and reads `env->env_ipc_from` and the rest. -/
  | take {s : Rpc} (hc : s.k.curenv = some srv) (hpc : s.server = .wait)
      (harg : (s.k.envs srv).hasArgument = true) :
      RpcStep srv s { s with
        server := .handle (s.k.envs srv).envIpcFrom (s.k.envs srv).envIpcValue
        log := s.log ++ [.taken (s.k.envs srv).envIpcFrom (s.k.envs srv).envIpcValue] }
  | skip {s : Rpc} (hc : s.k.curenv = some srv) (hpc : s.server = .wait)
      (harg : (s.k.envs srv).hasArgument = false) : RpcStep srv s { s with server := .recv }
  | compute {s : Rpc} {whom req : Word} (hc : s.k.curenv = some srv)
      (hpc : s.server = .handle whom req) (hreq : IsFsreq req) (val srcva perm : Word) :
      RpcStep srv s { s with
        server := .send whom val srcva perm
        log := s.log ++ [.computed whom val] }
  /-- `Invalid request code`. -/
  | invalid {s : Rpc} {whom req : Word} (hc : s.k.curenv = some srv)
      (hpc : s.server = .handle whom req) (hreq : ¬IsFsreq req) :
      RpcStep srv s { s with server := .unmap }
  | reply {s : Rpc} {whom val srcva perm : Word} {r : SysRet} {k' : Kernel}
      (hc : s.k.curenv = some srv) (hpc : s.server = .send whom val srcva perm)
      (hret : sysIpcTrySend whom val srcva perm s.k = .ret r k') (hperm : perm < 4096)
      (hbound : k'.vm.Bounded) :
      RpcStep srv s { s with k := k', server := .unmap, log := s.log ++ [.replied whom val] }
  | hold {s : Rpc} {whom val srcva perm : Word} {k' : Kernel} (hc : s.k.curenv = some srv)
      (hpc : s.server = .send whom val srcva perm)
      (herr : sysIpcTrySend whom val srcva perm s.k = .err .ipcNotRecv k') :
      RpcStep srv s { s with k := k', server := .spin whom val srcva perm }
  | again {s : Rpc} {whom val srcva perm : Word} {k' : Kernel} (hc : s.k.curenv = some srv)
      (hpc : s.server = .spin whom val srcva perm) (h : Goes .yield s.k k') :
      RpcStep srv s { s with k := k', server := .send whom val srcva perm }
  | unmap {s : Rpc} {k' : Kernel} (hc : s.k.curenv = some srv) (hpc : s.server = .unmap)
      (h : Goes (.memUnmap 0 reqva) s.k k') : RpcStep srv s { s with k := k', server := .recv }

/-- Before the first request: the server is alive, nobody waits for a message, and the ids of the envs are
those that `mkenvid` makes. -/
structure Rpc.Start (b : Boot) (srv : EnvPtr) (s : Rpc) : Prop where
  reach : Reach (fun _ _ => True) b s.k
  live : s.k.Live srv
  silent : ∀ e, (s.k.envs e).envIpcRecving = 0
  ids : ∀ e, s.k.Live e → (s.k.envs e).envId ≠ 0 ∧ envx (s.k.envs e).envId = e
  client : ∀ e, s.client e = .out
  server : s.server = .recv
  log : s.log = []

/-- The states that are reached. -/
inductive Rpc.Reachable (b : Boot) (srv : EnvPtr) : Rpc → Prop
  | start {s : Rpc} (h : s.Start b srv) : Rpc.Reachable b srv s
  | step {s t : Rpc} (h : Rpc.Reachable b srv s) (hstep : RpcStep srv s t) : Rpc.Reachable b srv t

/-! ## What should happen to a request -/

/-- How far the request of an env has come. -/
inductive Phase where
  | idle
  | pending (req : Word) (pp : Nat)
  | handling (req : Word) (pp : Nat)
  | computed (req : Word) (pp : Nat) (val : Word)
  | answered (val : Word)
deriving DecidableEq

/-- Every request is taken once, as it was sent; its value is computed once, and this value is replied and
returned. -/
def Phase.next : Phase → RpcEvent → Option Phase
  | .idle, .sent _ req pp => some (.pending req pp)
  | .pending req pp, .taken _ req' => if req' = req then some (.handling req pp) else none
  | .handling req pp, .computed _ val => some (.computed req pp val)
  | .computed _ _ val, .replied _ val' => if val' = val then some (.answered val) else none
  | .answered val, .returned _ val' => if val' = val then some .idle else none
  | _, _ => none

/-- How far the env `id` has come after these events; `none` if they are out of order. -/
def phaseOf (id : Word) (log : List RpcEvent) : Option Phase :=
  (log.filter fun ev => ev.id = id).foldlM Phase.next .idle

/-- The server has the request, or will find it in its mailbox. -/
def Phase.Busy : Phase → Prop
  | .pending _ _ => True
  | .handling _ _ => True
  | .computed _ _ _ => True
  | _ => False

end Mos
