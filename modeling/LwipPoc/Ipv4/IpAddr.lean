import LwipPoc.Arch

/-!
# Addresses in text

`ipaddr_aton` and `ipaddr_addr` of `core/ipv4/ip_addr.c`. A string is the list of its characters without the
terminating zero, which is what is read at its end. Addresses are as they lie in memory, on a little-endian
machine.
-/

namespace Lwip.Ipv4

/-- A character of a string. -/
abbrev Chr := BitVec 8

/-- `*cp`. -/
def deref (cp : List Chr) : Chr := cp.headD 0

/-- `in_range`. -/
def inRange (c lo up : Chr) : Bool := lo ≤ c && c ≤ up

/-- `isdigit`. -/
def isDigit (c : Chr) : Bool := inRange c 0x30 0x39

/-- `isxdigit`. -/
def isXDigit (c : Chr) : Bool := isDigit c || inRange c 0x61 0x66 || inRange c 0x41 0x46

/-- `islower`. -/
def isLower (c : Chr) : Bool := inRange c 0x61 0x7a

/-- `isspace`. -/
def isSpace (c : Chr) : Bool := c = 0x20 || c = 0x0c || c = 0x0a || c = 0x0d || c = 0x09 || c = 0x0b

/-- `htonl`. -/
def htonl (n : U32) : U32 :=
  (n &&& 0xff) <<< 24 ||| (n &&& 0xff00) <<< 8 ||| (n &&& 0xff0000) >>> 8 ||| (n &&& 0xff000000) >>> 24

/-- `IPADDR_NONE`. -/
def ipaddrNone : U32 := 0xffffffff

/-- The inner loop of `ipaddr_aton`: the digits of a number. -/
def atonDigits (base : U32) : U32 → List Chr → U32 × List Chr
  | val, [] => (val, [])
  | val, c :: cp =>
    if isDigit c then atonDigits base (val * base + (c - 0x30).setWidth 32) cp
    else if base = 16 ∧ isXDigit c then
      atonDigits base (val <<< 4 ||| (c.setWidth 32 + 10 - if isLower c then 0x61 else 0x41)) cp
    else (val, c :: cp)

/-- The base of a number, and where its digits start. -/
def atonBase (cp : List Chr) : U32 × List Chr :=
  if deref cp = 0x30 then
    let cp := cp.tail
    if deref cp = 0x78 ∨ deref cp = 0x58 then (16, cp.tail) else (8, cp)
  else (10, cp)

/-- The outer loop of `ipaddr_aton`, with room for so many parts more: the parts in front of the last one, the
value of the last one, and the rest of the string. -/
def atonParts : ℕ → List U32 → List Chr → Option (List U32 × U32 × List Chr)
  | room, parts, cp =>
    if isDigit (deref cp) then
      let num := atonBase cp
      let last := atonDigits num.1 0 num.2
      if deref last.2 = 0x2e then
        match room with
        | 0 => none
        | room + 1 => atonParts room (parts ++ [last.1]) last.2.tail
      else some (parts, last.1, last.2)
    else none

/-- The address of the parts, in host order. -/
def atonConcoct (parts : List U32) (val : U32) : Option U32 :=
  match parts with
  | [] => some val
  | [a] => if 0xffffff < val then none else some (val ||| a <<< 24)
  | [a, b] => if 0xffff < val then none else some (val ||| (a <<< 24 ||| b <<< 16))
  | [a, b, c] => if 0xff < val then none else some (val ||| (a <<< 24 ||| b <<< 16 ||| c <<< 8))
  | _ => none

/-- `ipaddr_aton`: what is saved to `addr`, if it returns 1. -/
def ipaddrAton (cp : List Chr) : Option U32 :=
  (atonParts 3 [] cp).bind fun r ↦
    if deref r.2.2 ≠ 0 ∧ ¬isSpace (deref r.2.2) then none else (atonConcoct r.1 r.2.1).map htonl

/-- `ipaddr_addr`. -/
def ipaddrAddr (cp : List Chr) : U32 := (ipaddrAton cp).getD ipaddrNone

-- "10.0x1.3"
example : ipaddrAton [0x31, 0x30, 0x2e, 0x30, 0x78, 0x31, 0x2e, 0x33] = some 0x0300010a := by decide

end Lwip.Ipv4
