import Jos.Kern.Env

/-!
# System calls (`kern/syscall.c`)

Console output is not part of the state. The characters that wait in the console buffer
are the list `cons`.
-/

namespace Jos

open Logic

/-- The `%s` loop of `vprintfmt`, which reads one character more than the precision. -/
def cprintfChars : Nat → Word → Int → Kern Unit
  | 0, _, _ => pure ()
  | fuel + 1, p, precision => do
    let ch ← loadByte p
    if ch = 0 then
      return ()
    else if precision < 0 then
      cprintfChars fuel (p + 1) precision
    else if 0 ≤ precision - 1 then
      cprintfChars fuel (p + 1) (precision - 1)
    else
      return ()

def sysCputs (s len : Word) : Kern Unit := do
  userMemAssert (← curenv) s len 0
  if s ≠ 0 then
    cprintfChars (2 ^ 32) s len.toInt

def sysCgetc : Kern Int := do
  match (← Code.get).cons with
  | [] => return 0
  | c :: rest =>
    Code.modify fun k => { k with cons := rest }
    return c.toInt

def sysGetenvid : Kern Int := do
  return (← env (← curenv)).envId.toInt

def sysEnvDestroy (envid : Word) : Kern Int := do
  match ← envid2env envid true with
  | .error r => return r
  | .ok e =>
    envDestroy e
    return 0

def sysExofork : Kern Int := do
  let cur ← curenv
  match ← envAlloc (← env cur).envId with
  | .error ret => return ret
  | .ok e =>
    setEnv e fun env => { env with envStatus := .notRunnable }
    Code.modify fun k => k.setEnv e fun env => { env with envTf := (k.envs cur).envTf }
    setEnv e fun env => { env with envTf := env.envTf.withEax 0 }
    return (← env e).envId.toInt

/-- The status that `sys_env_set_status` accepts as an argument. -/
def settableStatus (status : Word) : Option EnvStatus :=
  if status = 2 then some .runnable
  else if status = 4 then some .notRunnable
  else none

def sysEnvSetStatus (envid status : Word) : Kern Int := do
  match settableStatus status with
  | none => return -eInval
  | some status =>
    match ← envid2env envid true with
    | .error _ => return -eBadEnv
    | .ok e =>
      setEnv e fun env => { env with envStatus := status }
      return 0

/-- What follows `user_mem_assert` in `sys_env_set_trapframe`. -/
def storeFrame (e : Nat) (tf : Word) : Kern Int := do
  let frame ← loadTrapframe tf
  setEnv e fun env => { env with envTf := frame }
  setEnv e fun env => { env with envTf := { env.envTf with tfCs := gdUt ||| 3 } }
  setEnv e fun env =>
    { env with envTf := { env.envTf with tfEflags := env.envTf.tfEflags ||| flIf } }
  setEnv e fun env =>
    { env with envTf := { env.envTf with tfEflags := env.envTf.tfEflags &&& flIopl0 } }
  return 0

def sysEnvSetTrapframe (envid tf : Word) : Kern Int := do
  match ← envid2env envid true with
  | .error ret => return ret
  | .ok e =>
    userMemAssert e tf sizeofTrapframe pteW
    storeFrame e tf

def sysEnvSetPgfaultUpcall (envid func : Word) : Kern Int := do
  match ← envid2env envid true with
  | .error ret => return ret
  | .ok e =>
    setEnv e fun env => { env with envPgfaultUpcall := func }
    return 0

/-- The test of a permission word that the memory calls share: `PTE_U` and `PTE_P` are
set, and no bit outside `PTE_SYSCALL` is. -/
def permOk (perm : Word) : Bool :=
  perm &&& (pteU ||| pteP) == (pteU ||| pteP) && perm &&& ~~~pteSyscall == 0

def sysPageAlloc (envid va perm : Word) : Kern Int := do
  if utop ≤ va.toNat ∨ va.toNat % pgsize ≠ 0 then
    return -eInval
  if permOk perm = false then
    return -eInval
  match ← onPhys (pageAlloc allocZero) with
  | none => return -eNoMem
  | some pi =>
    match ← envid2env envid true with
    | .error _ => return -eBadEnv
    | .ok e =>
      let r ← onPhys (pageInsert (← env e).envPgdir pi va perm)
      if r < 0 then
        onPhys (pageFree pi)
        return -eNoMem
      return 0

def sysPageMap (srcenvid srcva dstenvid dstva perm : Word) : Kern Int := do
  match ← envid2env srcenvid true with
  | .error _ => return -eBadEnv
  | .ok srcEnv =>
    match ← envid2env dstenvid true with
    | .error _ => return -eBadEnv
    | .ok dstEnv =>
      if utop ≤ srcva.toNat ∨ pgoff srcva ≠ 0 ∨ utop ≤ dstva.toNat ∨ pgoff dstva ≠ 0 then
        return -eInval
      match ← onPhys (pageLookup (← env srcEnv).envPgdir srcva) with
      | none => return -eInval
      | some (pi, srcPte) =>
        let pte ← onPhys (loadPte srcPte)
        if writable perm ∧ writable pte = false then
          return -eInval
        if permOk perm = false then
          return -eInval
        let r ← onPhys (pageInsert (← env dstEnv).envPgdir pi dstva perm)
        if r < 0 then
          return -eNoMem
        return 0

def sysPageUnmap (envid va : Word) : Kern Int := do
  match ← envid2env envid true with
  | .error _ => return -eBadEnv
  | .ok e =>
    if utop ≤ va.toNat ∨ pgoff va ≠ 0 then
      return -eInval
    onPhys (pageRemove (← env e).envPgdir va)
    return 0

def sysMapKernelPage (kpage va : Word) : Kern Int := do
  if kpage.toNat < kernbase then
    Code.panic "PADDR called with invalid kva"
  let p ← onPhys (pa2page (pgnum (kpage - toWord kernbase)))
  onPhys (pageInsert (← env (← curenv)).envPgdir p va (pteU ||| pteW))

/-- One round of the loop of `sys_sbrk`. The result of `page_insert` is not looked at. -/
def sbrkPage (pgdir : Option Nat) (va : Word) : PhysM Unit := do
  match ← pageAlloc allocZero with
  | none => Code.panic "syscall->sys_sbrk: page alloc failed!"
  | some nPage =>
    let _ ← pageInsert pgdir nPage va (pteU ||| pteW)

def sbrkStart (envBreak inc : Word) : Word := rounddown (envBreak - inc)

/-- The number of rounds of the loop of `sys_sbrk`: a signed quotient. -/
def sbrkTime (envBreak inc : Word) : Nat :=
  let vaStart := sbrkStart envBreak inc
  let vaEnd := roundup (vaStart + inc)
  ((vaEnd - vaStart).toInt.tdiv pgsize).toNat

def sysSbrk (inc : Word) : Kern Int := do
  let cur ← curenv
  let entry ← env cur
  onPhys (Code.times (sbrkTime entry.envBreak inc) fun i =>
    sbrkPage entry.envPgdir (sbrkStart entry.envBreak inc + toWord (i * pgsize)))
  setEnv cur fun env => { env with envBreak := rounddown (env.envBreak - inc) }
  return (← env cur).envBreak.toInt

def sysIpcTrySend (envid value srcva perm : Word) : Kern Int := do
  match ← envid2env envid false with
  | .error ret => return ret
  | .ok e =>
    if (← env e).envIpcRecving = false then
      return -eIpcNotRecv
    if srcva.toNat < utop then
      if pgoff srcva ≠ 0 then
        return -eInval
      if permOk perm = false then
        return -eInval
      match ← onPhys (pageLookup (← env (← curenv)).envPgdir srcva) with
      | none => return -eInval
      | some (pp, ptePtr) =>
        let pte ← onPhys (loadPte ptePtr)
        if writable perm ∧ writable pte = false then
          return -eInval
        let target ← env e
        let r ← onPhys (pageInsert target.envPgdir pp target.envIpcDstva perm)
        if r < 0 then
          return -eNoMem
    let sender ← env (← curenv)
    setEnv e fun env =>
      { env with
        envIpcRecving := false
        envIpcFrom := sender.envId
        envIpcValue := value
        envIpcPerm := perm
        envStatus := .runnable
        envTf := env.envTf.withEax 0 }
    return 0

def sysIpcRecv (dstva : Word) : Kern Int := do
  if dstva.toNat < utop ∧ pgoff dstva ≠ 0 then
    return -eInval
  else
    let cur ← curenv
    setEnv cur fun env =>
      { env with envIpcRecving := true, envIpcDstva := dstva, envStatus := .notRunnable }
    schedYield
    return 0

def sysTimeMsec : Kern Int := do
  return ((← Code.get).ticks * 10).toInt

/-- `N_TXDESC` and `N_RXDESC`. -/
def ndesc : Nat := 256

def e1000Tx (buf len : Word) : Kern Int := do
  if 1518 < len.toNat then
    return -eInval
  let base := (← Code.get).e1000
  if (base.tdt + 1).toNat % ndesc = base.tdh.toNat then
    return -eAgain
  let i := base.tdt.toNat % ndesc
  if (base.txDescs i).status &&& 1 = 0 then
    return -eAgain
  let bytes ← copyIn buf len.toNat
  Code.modify fun k =>
    { k with e1000 :=
      { k.e1000 with
        tdt := toWord ((base.tdt + 1).toNat % ndesc)
        txDescs := Function.update k.e1000.txDescs i
          { length := len.setWidth 16
            cmd := (k.e1000.txDescs i).cmd ||| 5
            status := (k.e1000.txDescs i).status &&& ~~~1
            buf := bytes } } }
  return len.toNat

/-- The number of bytes that `e1000_rx` copies: the caller's length plays no part. -/
def RxDesc.copied (d : RxDesc) : Nat := min d.length.toNat 1518

def e1000Rx (buf : Word) : Kern Int := do
  if buf = 0 then
    return -eInval
  let base := (← Code.get).e1000
  let rdt := (base.rdt + 1).toNat % ndesc
  let next := base.rxDescs rdt
  if next.status &&& 1 = 0 then
    return -eAgain
  copyOut buf next.copied next.buf
  Code.modify fun k =>
    { k with e1000 :=
      { k.e1000 with
        rdt := toWord rdt
        rxDescs := Function.update k.e1000.rxDescs rdt
          { k.e1000.rxDescs rdt with status := 0 } } }
  return next.copied

def sysNetSend (buf len : Word) : Kern Int := do
  let retChk ← onPhys (userMemCheck (← env (← curenv)).envPgdir buf len (pteU ||| pteP))
  if retChk < 0 then
    return retChk
  e1000Tx buf len

def sysNetRecv (buf len : Word) : Kern Int := do
  let retChk ←
    onPhys (userMemCheck (← env (← curenv)).envPgdir buf len (pteU ||| pteP ||| pteW))
  if retChk < 0 then
    return retChk
  e1000Rx buf

def syscall (syscallno a1 a2 a3 a4 a5 : Word) : Kern Int :=
  match Sysno.ofWord syscallno with
  | some .cputs => do
    sysCputs a1 a2
    return 0
  | some .cgetc => sysCgetc
  | some .getenvid => sysGetenvid
  | some .envDestroy => sysEnvDestroy a1
  | some .sbrk => sysSbrk a1
  | some .mapKernelPage => sysMapKernelPage a1 a2
  | some .yield => do
    schedYield
    return 0
  | some .exofork => sysExofork
  | some .envSetStatus => sysEnvSetStatus a1 a2
  | some .pageAlloc => sysPageAlloc a1 a2 a3
  | some .pageMap => sysPageMap a1 a2 a3 a4 a5
  | some .pageUnmap => sysPageUnmap a1 a2
  | some .envSetPgfaultUpcall => sysEnvSetPgfaultUpcall a1 a2
  | some .ipcTrySend => sysIpcTrySend a1 a2 a3 a4
  | some .ipcRecv => sysIpcRecv a1
  | some .envSetTrapframe => sysEnvSetTrapframe a1 a2
  | some .timeMsec => sysTimeMsec
  | some .netSend => sysNetSend a1 a2
  | some .netRecv => sysNetRecv a1 a2
  | none => return -eInval

end Jos
