import Jos.Inc.Mmu
import Jos.Logic.Bytes

/-!
# Copying and filling memory (`lib/string.c`)

Both versions of `memmove` and `memset`. A string instruction does `ecx` rounds of `width` bytes in
the direction of the flag. Pointers are numbers, and ranges do not wrap around.
-/

namespace Jos

open Logic

def advance (df : Bool) (width a : Nat) : Nat := if df then a - width else a + width

def repMovs (df : Bool) (width : Nat) : Nat → Nat → Nat → Image → Image
  | 0, _, _, m => m
  | ecx + 1, edi, esi, m =>
    repMovs df width ecx (advance df width edi) (advance df width esi)
      (setBytes m edi width fun i => m (esi + i))

def repStos (width : Nat) (eax : Word) : Nat → Nat → Image → Image
  | 0, _, m => m
  | ecx + 1, edi, m =>
    repStos width eax ecx (advance false width edi) (setBytes m edi width (wordByte eax))

/-- `(int) a % 4 == 0` -/
def wordAligned (a : Nat) : Bool := (toWord a).toInt.tmod 4 == 0

def memmoveAsm (m : Image) (dst src n : Nat) : Image :=
  if src < dst ∧ dst < (src + n) % 2 ^ 32 then
    let s := src + n
    let d := dst + n
    if wordAligned s ∧ wordAligned d ∧ n % 4 = 0 then repMovs true 4 (n / 4) (d - 4) (s - 4) m
    else repMovs true 1 n (d - 1) (s - 1) m
  else if wordAligned src ∧ wordAligned dst ∧ n % 4 = 0 then repMovs false 4 (n / 4) dst src m
  else repMovs false 1 n dst src m

def memsetAsm (m : Image) (v : Nat) (c : Word) (n : Nat) : Image :=
  if n = 0 then m
  else if wordAligned v ∧ n % 4 = 0 then
    let c := c &&& 0xff
    repStos 4 (c <<< 24 ||| c <<< 16 ||| c <<< 8 ||| c) (n / 4) v m
  else repStos 1 c n v m

/-- `while (n-- > 0) *--d = *--s;` -/
def copyDown : Nat → Nat → Nat → Image → Image
  | 0, _, _, m => m
  | n + 1, d, s, m => copyDown n (d - 1) (s - 1) (setBytes m (d - 1) 1 fun _ => m (s - 1))

/-- `while (n-- > 0) *d++ = *s++;` -/
def copyUp : Nat → Nat → Nat → Image → Image
  | 0, _, _, m => m
  | n + 1, d, s, m => copyUp n (d + 1) (s + 1) (setBytes m d 1 fun _ => m s)

def memmovePlain (m : Image) (dst src n : Nat) : Image :=
  if src < dst ∧ dst < (src + n) % 2 ^ 32 then copyDown n (dst + n) (src + n) m
  else copyUp n dst src m

/-- `while (--m >= 0) *p++ = c;` for an `int`, which is not negative in more than `2^31` rounds. -/
def fillLoop (c : Word) : Nat → Word → Nat → Image → Image
  | 0, _, _, mem => mem
  | rounds + 1, m, p, mem =>
    if 0 ≤ (m - 1).toInt then
      fillLoop c rounds (m - 1) (p + 1) (setBytes mem p 1 fun _ => wordByte c 0)
    else mem

def memsetPlain (m : Image) (v : Nat) (c : Word) (n : Nat) : Image :=
  fillLoop c (2 ^ 31) (toWord n) v m

end Jos
