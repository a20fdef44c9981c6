import Jos.Inc.Env
import Mathlib.Data.Finset.Card
import Mathlib.Data.Fintype.Prod

/-!
# Closing a shared socket (`lib/fd.c`, `lib/sockets.c`, `lib/pageref.c`)

Several descriptors map one page with the `struct Fd` of a socket. `devsock_close` reads the number
of references in user space and calls `nsipc_close` if it is 1, and `fd_close` unmaps the page.
Environments take turns at each step. `log` is a history variable: the calls of `nsipc_close` and
the unmappings.
-/

namespace Jos

def maxfd : Nat := 32

/-- A descriptor number in an environment. -/
abbrev FdSlot := Fin nenv × Fin maxfd

/-- Where a call of `close` is: before `pageref`, before `nsipc_close`, or before
`sys_page_unmap`. -/
inductive ClosePc where
  | pageref
  | nsipcClose
  | unmap
  deriving DecidableEq

structure CloseCall where
  fd : Fin maxfd
  pc : ClosePc
  deriving DecidableEq

inductive SockEvent where
  | nsipcClose (e : Fin nenv)
  | unmap (e : Fin nenv) (fd : Fin maxfd)
  deriving DecidableEq

/-- The descriptors that map the page, and the call of `close` that an environment is in. -/
structure SockUsers where
  mapped : Finset FdSlot
  calls : Fin nenv → Option CloseCall
  log : List SockEvent

namespace SockUsers

/-- `pageref`, which reads the 16 bits of `pp_ref`. -/
def pageref (s : SockUsers) (e : Fin nenv) (fd : Fin maxfd) : BitVec 16 :=
  if (e, fd) ∈ s.mapped then BitVec.ofNat 16 s.mapped.card else 0

def setCall (s : SockUsers) (e : Fin nenv) (c : Option CloseCall) : SockUsers :=
  { s with calls := Function.update s.calls e c }

/-- `close(fd)` up to `devsock_close`: it returns at once if the descriptor is not mapped. -/
def beginClose (s : SockUsers) (e : Fin nenv) (fd : Fin maxfd) : SockUsers :=
  if s.calls e = none ∧ (e, fd) ∈ s.mapped then s.setCall e (some ⟨fd, .pageref⟩) else s

/-- The next step of the call that the environment is in. -/
def closeStep (s : SockUsers) (e : Fin nenv) : SockUsers :=
  match s.calls e with
  | none => s
  | some ⟨fd, .pageref⟩ =>
    if s.pageref e fd = 1 then s.setCall e (some ⟨fd, .nsipcClose⟩)
    else s.setCall e (some ⟨fd, .unmap⟩)
  | some ⟨fd, .nsipcClose⟩ =>
    { s.setCall e (some ⟨fd, .unmap⟩) with log := s.log ++ [.nsipcClose e] }
  | some ⟨fd, .unmap⟩ =>
    { s.setCall e none with mapped := s.mapped.erase (e, fd), log := s.log ++ [.unmap e fd] }

end SockUsers

/-- What may happen next: a call of `close` begins, or a call takes a step. -/
inductive SockMove where
  | beginClose (e : Fin nenv) (fd : Fin maxfd)
  | step (e : Fin nenv)
  deriving DecidableEq

def SockUsers.move (s : SockUsers) : SockMove → SockUsers
  | .beginClose e fd => s.beginClose e fd
  | .step e => s.closeStep e

def SockUsers.start (mapped : Finset FdSlot) : SockUsers := ⟨mapped, fun _ => none, []⟩

end Jos
