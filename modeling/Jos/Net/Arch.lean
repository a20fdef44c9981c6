import Jos.Inc.Mmu
import Jos.Logic.Bytes

/-!
# Threads, semaphores and mailboxes of the lwIP port (`net/lwip/jos/arch`)

The threads of the network server switch only in `thread_yield`. A thread in a mailbox function is a
machine with a place for each reading of the clock and each switch. Threads are numbered by their
contexts. `done` is a history variable with the mailbox functions that have returned.
-/

namespace Jos

open Function

structure SysSem where
  freed : Bool
  gen : Word
  counter : BitVec 16
  waiters : BitVec 16

/-- The counter and the flag as one word. -/
def SysSem.v (e : SysSem) : Word := (e.waiters ++ e.counter : BitVec (16 + 16))

def mboxslots : Nat := 32

structure SysMbox where
  freed : Bool
  head : Int
  nextq : Int
  msg : Nat → Word
  queuedMsg : Nat
  freeMsg : Nat

def sysArchTimeout : Word := 0xffffffff
def sysArchNowait : Word := 0xfffffffe
def errOk : Int := 0
def errMem : Int := -1

/-- The mailbox functions, with their arguments apart from the mailbox. -/
inductive MboxCall where
  | post (msg : Word)
  | trypost (msg : Word)
  | fetch (tm : Word)
  | tryfetch
  deriving DecidableEq

/-- The semaphore that the function waits for, and how long. -/
def MboxCall.sem (c : MboxCall) (mb : SysMbox) : Nat :=
  match c with
  | .post _ | .trypost _ => mb.freeMsg
  | .fetch _ | .tryfetch => mb.queuedMsg

def MboxCall.tm : MboxCall → Word
  | .post _ | .trypost _ => 0
  | .fetch tm => tm
  | .tryfetch => sysArchNowait

/-- The variables of `sys_arch_sem_wait` and of its caller. -/
structure SemWait where
  mbox : Nat
  call : MboxCall
  sem : Nat
  gen : Word
  waited : Word

/-- Places in `sys_arch_sem_wait`: the test of its loop, the call of `thread_wait`, the test of the
loop of `thread_wait`, its `thread_yield`, and its return. -/
inductive WaitPc where
  | test
  | enter (a sleepUntil curV : Word)
  | loop (a sleepUntil curV s p : Word)
  | yielded (a sleepUntil curV s : Word)
  | leave (a : Word)

inductive ThreadPlace where
  | idle
  | semWait (w : SemWait) (pc : WaitPc)

/-- `struct thread_context`; `tc_wait_addr` points to a semaphore. -/
structure ThreadContext where
  waitAddr : Option Nat
  wakeup : Bool
  link : Option Nat
  place : ThreadPlace

structure ThreadQueue where
  first : Option Nat
  last : Option Nat

/-- A mailbox function that has returned: an `err_t` for a post, the time for a fetch. -/
structure MboxDone where
  call : MboxCall
  result : Int
  msg : Option Word

inductive LwipPanic where
  | freed
  | postFailed
  | noMessage
  | noTids
  | timeOverflowed
  | mboxSize
  | noSems
  deriving DecidableEq

structure Lwip where
  sems : Nat → SysSem
  mboxes : Nat → SysMbox
  tcs : Nat → ThreadContext
  maxTid : Nat
  queue : ThreadQueue
  killQueue : ThreadQueue
  curTc : Option Nat
  ticks : Word
  panicked : Option LwipPanic
  semFree : List Nat
  mboxFree : List Nat
  done : Nat → List MboxDone

/-! ## Thread queues (`threadq.h`) -/

def setLink (tcs : Nat → ThreadContext) (tc : Nat) (link : Option Nat) : Nat → ThreadContext :=
  update tcs tc { tcs tc with link := link }

def threadqPush (tcs : Nat → ThreadContext) (tq : ThreadQueue) (tc : Nat) :
    (Nat → ThreadContext) × ThreadQueue :=
  let tcs := setLink tcs tc none
  match tq.first with
  | none => (tcs, ⟨some tc, some tc⟩)
  | some _ =>
    match tq.last with
    | none => (tcs, { tq with last := some tc }) -- a null pointer: this does not happen
    | some last => (setLink tcs last (some tc), { tq with last := some tc })

def threadqPop (tcs : Nat → ThreadContext) (tq : ThreadQueue) :
    Option (Nat × (Nat → ThreadContext) × ThreadQueue) :=
  tq.first.map fun tc => (tc, setLink tcs tc none, { tq with first := (tcs tc).link })

/-! ## Threads (`thread.c`) -/

/-- The loop of `thread_wakeup`, along at most `n` links. -/
def threadWakeup (addr : Nat) : Nat → Option Nat → (Nat → ThreadContext) → Nat → ThreadContext
  | 0, _, tcs => tcs
  | _ + 1, none, tcs => tcs
  | n + 1, some tc, tcs =>
    threadWakeup addr n (tcs tc).link
      (if (tcs tc).waitAddr = some addr then
        update tcs tc { tcs tc with wakeup := true }
      else tcs)

/-- `thread_clean(threadq_pop(&kill_queue))`: a context that is freed is not used any more. -/
def threadClean (tcs : Nat → ThreadContext) (killQueue : ThreadQueue) :
    (Nat → ThreadContext) × ThreadQueue :=
  match threadqPop tcs killQueue with
  | none => (tcs, killQueue)
  | some (_, tcs, killQueue) => (tcs, killQueue)

namespace Lwip

def panic (s : Lwip) (p : LwipPanic) : Lwip := { s with panicked := some p }

def timeMsec (s : Lwip) : Word := s.ticks * 10

def timeTick (s : Lwip) : Lwip :=
  if (s.ticks + 1) * 10 < s.ticks + 1 then s.panic .timeOverflowed
  else { s with ticks := s.ticks + 1 }

def threadYield (s : Lwip) : Lwip :=
  match threadqPop s.tcs s.queue with
  | none => s
  | some (next, tcs, queue) =>
    match s.curTc with
    | none => { s with tcs := tcs, queue := queue, curTc := some next }
    | some cur =>
      { s with
        tcs := (threadqPush tcs queue cur).1
        queue := (threadqPush tcs queue cur).2
        curTc := some next }

/-- `thread_create`, when its allocations succeed. -/
def threadCreate (s : Lwip) : Lwip :=
  if s.maxTid + 1 = 2 ^ 32 - 1 then s.panic .noTids
  else
    let tcs := update s.tcs s.maxTid ⟨none, false, none, .idle⟩
    { s with
      tcs := (threadqPush tcs s.queue s.maxTid).1
      queue := (threadqPush tcs s.queue s.maxTid).2
      maxTid := s.maxTid + 1 }

/-- `thread_halt`. Without another thread the environment exits, and nothing runs any more. -/
def threadHalt (s : Lwip) (cur : Nat) : Lwip :=
  let cleaned := threadClean s.tcs s.killQueue
  threadYield
    { s with
      tcs := (threadqPush cleaned.1 cleaned.2 cur).1
      killQueue := (threadqPush cleaned.1 cleaned.2 cur).2
      curTc := none }

/-! ## Semaphores and mailboxes (`sys_arch.c`) -/

def setSem (s : Lwip) (sem : Nat) (f : SysSem → SysSem) : Lwip :=
  { s with sems := update s.sems sem (f (s.sems sem)) }

def setTc (s : Lwip) (tid : Nat) (f : ThreadContext → ThreadContext) : Lwip :=
  { s with tcs := update s.tcs tid (f (s.tcs tid)) }

def goto (s : Lwip) (tid : Nat) (w : SemWait) (pc : WaitPc) : Lwip :=
  s.setTc tid fun tc => { tc with place := .semWait w pc }

def ret (s : Lwip) (tid mbox : Nat) (d : MboxDone) : Lwip :=
  match s.panicked with
  | some _ => s
  | none =>
    { s.setTc tid fun tc => { tc with place := .idle } with
      done := update s.done mbox (s.done mbox ++ [d]) }

def sysSemSignal (s : Lwip) (sem : Nat) : Lwip :=
  if (s.sems sem).freed then s.panic .freed
  else
    let s := s.setSem sem fun e => { e with counter := e.counter + 1 }
    if (s.sems sem).waiters ≠ 0 then
      { s.setSem sem fun e => { e with waiters := 0 } with
        tcs := threadWakeup sem s.maxTid s.queue.first s.tcs }
    else s

/-- `sys_sem_new`. The flag of the waiters stays as it was. -/
def sysSemNew (s : Lwip) (count : BitVec 8) : Except LwipPanic (Nat × Lwip) :=
  match s.semFree with
  | [] => .error .noSems
  | se :: rest =>
    if (s.sems se).freed = false then .error .freed
    else .ok (se, { s.setSem se fun e =>
      { e with freed := false, counter := count.setWidth 16, gen := e.gen + 1 } with
        semFree := rest })

def sysSemFree (s : Lwip) (sem : Nat) : Lwip :=
  if (s.sems sem).freed then s.panic .freed
  else
    { s.setSem sem fun e => { e with freed := true, gen := e.gen + 1 } with
      semFree := sem :: s.semFree }

/-- `sys_mbox_new`. Out of semaphores it frees the semaphore `SYS_SEM_NULL`; the model stops
there. -/
def sysMboxNew (s : Lwip) (size : Nat) : Lwip :=
  if mboxslots ≤ size then s.panic .mboxSize
  else
    match s.mboxFree with
    | [] => s
    | i :: rest =>
      if (s.mboxes i).freed = false then s.panic .freed
      else match s.sysSemNew 0 with
      | .error e => s.panic e
      | .ok (queuedMsg, s) =>
        match s.sysSemNew (BitVec.ofNat 8 mboxslots) with
        | .error e => s.panic e
        | .ok (freeMsg, s) =>
          { s with
            mboxFree := rest
            mboxes := update s.mboxes i
              { s.mboxes i with
                freed := false
                head := -1
                nextq := 0
                queuedMsg := queuedMsg
                freeMsg := freeMsg }
            done := update s.done i [] }

def sysMboxFree (s : Lwip) (mbox : Nat) : Lwip :=
  if (s.mboxes mbox).freed then s.panic .freed
  else
    let s := s.sysSemFree (s.mboxes mbox).queuedMsg
    let s := s.sysSemFree (s.mboxes mbox).freeMsg
    { s with
      mboxFree := mbox :: s.mboxFree
      mboxes := update s.mboxes mbox { s.mboxes mbox with freed := true } }

/-- `sys_mbox_trypost` and `sys_mbox_post` after the wait. -/
def trypostBody (s : Lwip) (tid : Nat) (w : SemWait) (msg : Word) : Lwip :=
  let mb := s.mboxes w.mbox
  if mb.nextq = mb.head then
    match w.call with
    | .post _ => s.panic .postFailed
    | _ => s.ret tid w.mbox ⟨w.call, errMem, none⟩
  else
    let slot := mb.nextq
    let mb' : SysMbox :=
      { mb with
        nextq := (slot + 1).tmod mboxslots
        msg := update mb.msg slot.toNat msg
        head := if mb.head = -1 then slot else mb.head }
    (sysSemSignal { s with mboxes := update s.mboxes w.mbox mb' } mb.queuedMsg).ret tid
      w.mbox ⟨w.call, errOk, none⟩

/-- `sys_arch_mbox_fetch` after the wait. -/
def fetchBody (s : Lwip) (tid : Nat) (w : SemWait) (waited : Word) : Lwip :=
  if waited = sysArchTimeout then s.ret tid w.mbox ⟨w.call, waited.toNat, none⟩
  else
    let mb := s.mboxes w.mbox
    let slot := mb.head
    if slot = -1 then s.panic .noMessage
    else
      let head := (slot + 1).tmod mboxslots
      let mb' : SysMbox := { mb with head := if head = mb.nextq then -1 else head }
      (sysSemSignal { s with mboxes := update s.mboxes w.mbox mb' } mb.freeMsg).ret tid
        w.mbox ⟨w.call, waited.toNat, some (mb.msg slot.toNat)⟩

/-- `sys_arch_sem_wait` returns to the mailbox function. -/
def semWaitRet (s : Lwip) (tid : Nat) (w : SemWait) (r : Word) : Lwip :=
  match w.call with
  | .post msg | .trypost msg => s.trypostBody tid w msg
  | .fetch _ | .tryfetch => s.fetchBody tid w r

/-- The next step of a thread in `sys_arch_sem_wait`. -/
def stepWait (s : Lwip) (tid : Nat) (w : SemWait) : WaitPc → Lwip
  | .test =>
    if w.call.tm = 0 ∨ w.waited < w.call.tm then
      if 0 < (s.sems w.sem).counter then
        (s.setSem w.sem fun e => { e with counter := e.counter - 1 }).semWaitRet tid w w.waited
      else if w.call.tm = sysArchNowait then s.semWaitRet tid w sysArchTimeout
      else
        let a := s.timeMsec
        let sleepUntil := if w.call.tm ≠ 0 then a + (w.call.tm - w.waited) else ~~~0
        let s := s.setSem w.sem fun e => { e with waiters := 1 }
        s.goto tid w (.enter a sleepUntil (s.sems w.sem).v)
    else s.semWaitRet tid w sysArchTimeout
  | .enter a sleepUntil curV =>
    s.setTc tid fun tc =>
      { tc with
        waitAddr := some w.sem
        wakeup := false
        place := .semWait w (.loop a sleepUntil curV s.timeMsec s.timeMsec) }
  | .loop a sleepUntil curV t p =>
    if p < sleepUntil ∧ ¬p < t ∧ (s.sems w.sem).v = curV ∧ (s.tcs tid).wakeup = false then
      (s.goto tid w (.yielded a sleepUntil curV t)).threadYield
    else
      s.setTc tid fun tc =>
        { tc with waitAddr := none, wakeup := false, place := .semWait w (.leave a) }
  | .yielded a sleepUntil curV t => s.goto tid w (.loop a sleepUntil curV t s.timeMsec)
  | .leave a =>
    if w.gen ≠ (s.sems w.sem).gen then s.semWaitRet tid w sysArchTimeout
    else s.goto tid { w with waited := w.waited + (s.timeMsec - a) } .test

def beginCall (s : Lwip) (tid mbox : Nat) (c : MboxCall) : Lwip :=
  let sem := c.sem (s.mboxes mbox)
  if (s.mboxes mbox).freed then s.panic .freed
  else if (s.sems sem).freed then s.panic .freed
  else s.goto tid ⟨mbox, c, sem, (s.sems sem).gen, 0⟩ .test

end Lwip

def nsem : Nat := 256
def nmbox : Nat := 128

/-- The state after `thread_init` and `sys_init`, when the first thread has started. -/
def Lwip.init : Lwip where
  sems _ := ⟨true, 0, 0, 0⟩
  mboxes _ := ⟨true, 0, 0, fun _ => 0, 0, 0⟩
  tcs _ := ⟨none, false, none, .idle⟩
  maxTid := 1
  queue := ⟨none, none⟩
  killQueue := ⟨none, none⟩
  curTc := some 0
  ticks := 0
  panicked := none
  semFree := (List.range nsem).reverse
  mboxFree := (List.range nmbox).reverse
  done _ := []

/-- The thread is inside a function of the mailbox. -/
def ThreadPlace.inside (mbox : Nat) : ThreadPlace → Bool
  | .idle => false
  | .semWait w _ => w.mbox = mbox

/-- The clock ticks, or the running thread goes on with a mailbox function, calls one, makes or
frees a mailbox, yields, creates a thread or halts. -/
inductive LwipMove where
  | tick
  | step
  | call (mbox : Nat) (c : MboxCall)
  | new (size : Nat)
  | free (mbox : Nat)
  | yield
  | create
  | halt

/-- A mailbox is freed only when no thread is inside one of its functions: until then it is
live. -/
def Lwip.move (s : Lwip) (m : LwipMove) : Lwip :=
  match s.panicked, s.curTc with
  | some _, _ | _, none => s
  | none, some tid =>
    match m, (s.tcs tid).place with
    | .tick, _ => s.timeTick
    | .step, .semWait w pc => s.stepWait tid w pc
    | .call mbox c, .idle => s.beginCall tid mbox c
    | .new size, .idle => s.sysMboxNew size
    | .free mbox, .idle =>
      if (List.range s.maxTid).all fun t => !(s.tcs t).place.inside mbox then s.sysMboxFree mbox
      else s
    | .yield, .idle => s.threadYield
    | .create, .idle => s.threadCreate
    | .halt, .idle => s.threadHalt tid
    | _, _ => s

def Lwip.run (s : Lwip) (moves : List LwipMove) : Lwip := moves.foldl .move s

/-! ## What a mailbox holds -/

/-- The messages in a mailbox, from `head` up to `nextq`. -/
def SysMbox.contents (mb : SysMbox) : List Word :=
  if mb.head = -1 then []
  else
    let n := (mb.nextq - mb.head - 1) % mboxslots + 1
    (List.range n.toNat).map fun j => mb.msg ((mb.head.toNat + j) % mboxslots)

/-- The message of a post. -/
def MboxCall.posts : MboxCall → Option Word
  | .post msg | .trypost msg => some msg
  | .fetch _ | .tryfetch => none

/-- The messages of the posts that have succeeded, and the messages fetched. -/
def Lwip.posted (s : Lwip) (mbox : Nat) : List Word :=
  (s.done mbox).filterMap fun d => if d.result = errOk then d.call.posts else none

def Lwip.fetched (s : Lwip) (mbox : Nat) : List Word := (s.done mbox).filterMap fun d => d.msg

end Jos
