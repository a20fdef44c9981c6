import Jos.Logic.Bytes

/-!
# Console input (`kern/console.c`)

The devices are given by what they return: `cons_intr` calls a routine until it returns -1, and the
characters before that are a list.
-/

namespace Jos

open Logic

def consbufsize : Nat := 512

/-- The variable `cons`. -/
structure Cons where
  buf : Nat → Byte
  rpos : Nat
  wpos : Nat

def Cons.start : Cons := ⟨fun _ => 0, 0, 0⟩

/-- Both positions are advanced in this way. -/
def nextPos (pos : Nat) : Nat := if pos + 1 = consbufsize then 0 else pos + 1

/-- A round of the loop of `cons_intr`. -/
def consPut (cons : Cons) (c : Byte) : Cons :=
  if c = 0 then cons
  else { cons with buf := Function.update cons.buf cons.wpos c, wpos := nextPos cons.wpos }

def consIntr (cons : Cons) (cs : List Byte) : Cons := cs.foldl consPut cons

/-- `serial` and `kbd` are what the two devices have when they are polled. -/
def consGetc (cons : Cons) (serial kbd : List Byte) : Cons × Byte :=
  let cons := consIntr (consIntr cons serial) kbd
  if cons.rpos ≠ cons.wpos then ({ cons with rpos := nextPos cons.rpos }, cons.buf cons.rpos)
  else (cons, 0)

/-- An interrupt of one of the devices, or a call of `cons_getc`. -/
inductive ConsEvent where
  | intr (cs : List Byte)
  | getc (serial kbd : List Byte)

/-- The state after the events, and what `cons_getc` has returned. -/
def Cons.run (cons : Cons) : List ConsEvent → Cons × List Byte
  | [] => (cons, [])
  | .intr cs :: es => (consIntr cons cs).run es
  | .getc serial kbd :: es =>
    let (cons', c) := consGetc cons serial kbd
    let (cons'', cs) := cons'.run es
    (cons'', c :: cs)

end Jos
