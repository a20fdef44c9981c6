import Jos.Kernel.Delivery

/-!
# Requests to the file server (`lib/file.c`, `lib/ipc.c`, `fs/serv.c`)

A client calls `fsipc` and the server runs `serve`, both as machines that make one system call at a
time. All other environments make any sends and receives. What a handler computes is left open. The
number of a request goes with it and with its answer, as a history variable.
-/

namespace Jos

/-- The two environments, the identifier under which the client knows the server, the client's own
identifier, and the client's page for requests. -/
structure FsEnvs where
  client : Nat
  server : Nat
  clientId : Word
  fsenv : Word
  fsipcbuf : Word
  ne : client ≠ server
  names_client : clientId ≠ 0 ∧ envx clientId = client
  names_server : fsenv ≠ 0 ∧ envx fsenv = server

/-- `fsreq`: where the server receives the page of a request. -/
def fsreq : Word := 0x0ffff000

/-- `ipc_send` and `ipc_recv` pass `UTOP` for the null pointer. -/
def pageOrUtop (pg : Word) : Word := if pg = 0 then toWord utop else pg

/-- Places in `fsipc`: the loop of `ipc_send`, the call of `sys_ipc_recv`, and inside it. -/
inductive FsipcPc where
  | outside
  | send (type dstva : Word)
  | recv (dstva : Word)
  | waiting (dstva : Word)
  | panicked
  deriving DecidableEq

/-- Places in `serve`: the call of `sys_ipc_recv`, inside it, the loop of `ipc_send` with the answer
to a request, and the call of `sys_page_unmap`. -/
inductive FsServePc where
  | recv
  | waiting
  | send (whom value pg perm : Word) (request : Option Nat)
  | unmap
  | panicked

/-- A message that has reached the client: the call that sent it, the request that it answers, and
the kernel before and after. -/
structure FsDelivery where
  call : Call
  request : Option Nat
  before : Kernel
  after : Kernel

/-- A call of `fsipc` that has returned: its request, the value, the last message to the client if
there has been one since the request, and the kernel. -/
structure FsReturn where
  request : Nat
  dstva : Word
  value : Word
  delivery : Option FsDelivery
  kernel : Kernel

/-- The kernel, the two programs, and the history: the number of requests sent, the one received
last, the last message to the client, and the calls of `fsipc` that have returned. -/
structure FsWorld where
  k : Kernel
  client : FsipcPc
  server : FsServePc
  requests : Nat
  pending : Option Nat
  delivery : Option FsDelivery
  returns : List FsReturn

inductive FsMove where
  | fsipc (type dstva : Word)
  | serve (value pg perm : Word)
  | ret
  | client (cpu : Nat)
  | server (cpu : Nat)
  | other (c : Call)

namespace FsWorld

variable (E : FsEnvs) (w : FsWorld)

def ipcSend (cpu caller : Nat) (toEnv val pg perm : Word) : Call :=
  ⟨cpu, caller, 12, toEnv, val, pageOrUtop pg, perm, 0⟩

def ipcRecv (cpu caller : Nat) (pg : Word) : Call := ⟨cpu, caller, 13, pageOrUtop pg, 0, 0, 0, 0⟩

def unmap (cpu caller : Nat) (va : Word) : Call := ⟨cpu, caller, 6, 0, va, 0, 0, 0⟩

theorem ipcSend_sysno (cpu caller : Nat) (toEnv val pg perm : Word) :
    (ipcSend cpu caller toEnv val pg perm).sysno = some .ipcTrySend := rfl

theorem ipcRecv_sysno (cpu caller : Nat) (pg : Word) :
    (ipcRecv cpu caller pg).sysno = some .ipcRecv := rfl

theorem unmap_sysno (cpu caller : Nat) (va : Word) :
    (unmap cpu caller va).sysno = some .pageUnmap := rfl

/-- An environment other than the server sends or receives; the client does so only outside
`fsipc`. An environment that waits for a message makes no call. -/
def MayCall (c : Call) : Prop :=
  c.caller ≠ E.server ∧ (c.caller = E.client → w.client = .outside) ∧
    (c.sysno = some .ipcTrySend ∨ c.sysno = some .ipcRecv) ∧ w.k.Live c.caller ∧
    (w.k.envs c.caller).envIpcRecving = false

instance decidableMayCall (c : Call) : Decidable (w.MayCall E c) :=
  inferInstanceAs (Decidable (_ ∧ _ ∧ _ ∧ _ ∧ _))

def call : FsMove → Option Call
  | .client cpu =>
    match w.client with
    | .send type _ => some (ipcSend cpu E.client E.fsenv type E.fsipcbuf (pteP ||| pteW ||| pteU))
    | .recv dstva => some (ipcRecv cpu E.client dstva)
    | _ => none
  | .server cpu =>
    match w.server with
    | .recv => some (ipcRecv cpu E.server fsreq)
    | .send whom value pg perm _ => some (ipcSend cpu E.server whom value pg perm)
    | .unmap => some (unmap cpu E.server fsreq)
    | _ => none
  | .other c => if w.MayCall E c then some c else none
  | _ => none

/-- The number of the request that a move sends. -/
def requestOf : FsMove → Option Nat
  | .client _ =>
    match w.client with
    | .send _ _ => some (w.requests + 1)
    | _ => none
  | _ => none

/-- The number of the request that a move answers. -/
def answerOf : FsMove → Option Nat
  | .server _ =>
    match w.server with
    | .send _ _ _ _ request => request
    | _ => none
  | _ => none

/-- A message has reached the environment `e`. -/
def reached (k k' : Kernel) (e : Nat) : Bool :=
  (k.envs e).envIpcRecving && !(k'.envs e).envIpcRecving

/-- The kernel has carried out the call `c` of the move `m`. -/
def after (m : FsMove) (c : Call) (k' : Kernel) : FsWorld :=
  { w with
    k := k'
    pending := if reached w.k k' E.server then w.requestOf m else w.pending
    delivery := if reached w.k k' E.client then some ⟨c, w.answerOf m, w.k, k'⟩ else w.delivery }

def returned (r : Int) : FsMove → FsWorld
  | .client _ =>
    match w.client with
    | .send _ dstva =>
      if r = 0 then { w with client := .recv dstva, requests := w.requests + 1 }
      else if r ≠ -eIpcNotRecv then { w with client := .panicked }
      else w
    | .recv dstva =>
      { w with
        client := .outside
        returns := w.returns ++ [⟨w.requests, dstva, BitVec.ofInt 32 r, none, w.k⟩] }
    | _ => w
  | .server _ =>
    match w.server with
    | .send _ _ _ _ _ =>
      if r = 0 then { w with server := .unmap }
      else if r ≠ -eIpcNotRecv then { w with server := .panicked }
      else w
    | .unmap => { w with server := .recv }
    | _ => w
  | _ => w

def left : FsMove → FsWorld
  | .client _ =>
    match w.client with
    | .recv dstva => { w with client := .waiting dstva, delivery := none }
    | _ => w
  | .server _ =>
    match w.server with
    | .recv => { w with server := .waiting }
    | _ => w
  | _ => w

/-- The server has a message. A request without a page is left hanging; to any other one it sends
what the handler says. -/
def serve (value pg perm : Word) : FsWorld :=
  match w.server with
  | .waiting =>
    if (w.k.envs E.server).envIpcRecving then w
    else if (w.k.envs E.server).envIpcPerm &&& pteP = 0 then { w with server := .recv }
    else { w with server := .send (w.k.envs E.server).envIpcFrom value pg perm w.pending }
  | _ => w

/-- The client has a message, and `fsipc` returns its value. -/
def ret : FsWorld :=
  match w.client with
  | .waiting dstva =>
    if (w.k.envs E.client).envIpcRecving then w
    else
      { w with
        client := .outside
        returns := w.returns ++
          [⟨w.requests, dstva, (w.k.envs E.client).envIpcValue, w.delivery, w.k⟩] }
  | _ => w

/-- A call of `fsipc`, by a client that does not wait for a message. -/
def fsipc (type dstva : Word) : FsWorld :=
  match w.client with
  | .outside =>
    if (w.k.envs E.client).envIpcRecving then w else { w with client := .send type dstva }
  | _ => w

/-- What a move does that makes no call. -/
def internal : FsMove → FsWorld
  | .fsipc type dstva => w.fsipc E type dstva
  | .serve value pg perm => w.serve E value pg perm
  | .ret => w.ret E
  | _ => w

def move (m : FsMove) : FsWorld :=
  match w.call E m with
  | none => w.internal E m
  | some c =>
    match c.run (w.k.enter c) with
    | .ret r k' => (w.after E m c k').returned r m
    | .exit k' => (w.after E m c k').left m
    | .panic _ => w

def run (moves : List FsMove) : FsWorld := moves.foldl (FsWorld.move E) w

/-- Neither program has begun: the client is outside `fsipc`, and the server enters `serve`. -/
def start (k : Kernel) : FsWorld := ⟨k, .outside, .recv, 0, none, none, []⟩

end FsWorld

end Jos
