import Haruspex.Library.Marks
import Haruspex.Rust.Text

/-! Rust's `std::net` addresses. -/
namespace Haruspex.Rust
open Marks
set_option autoImplicit false

structure Ipv4Addr where
  a : UInt8
  b : UInt8
  c : UInt8
  d : UInt8
  deriving DecidableEq

structure Ipv6Addr where
  s0 : UInt16
  s1 : UInt16
  s2 : UInt16
  s3 : UInt16
  s4 : UInt16
  s5 : UInt16
  s6 : UInt16
  s7 : UInt16
  deriving DecidableEq

inductive IpAddr where
  | v4 (addr : Ipv4Addr)
  | v6 (addr : Ipv6Addr)
  deriving DecidableEq

structure SocketAddr where
  ip : IpAddr
  port : ℕ
  deriving DecidableEq

/-! ## Kinds of addresses -/

namespace Ipv4Addr

def isLoopback (v4 : Ipv4Addr) : Bool := v4.a == 127

def isPrivate (v4 : Ipv4Addr) : Bool :=
  v4.a == 10 || (v4.a == 172 && 16 ≤ v4.b && v4.b ≤ 31) || (v4.a == 192 && v4.b == 168)

def isLinkLocal (v4 : Ipv4Addr) : Bool := v4.a == 169 && v4.b == 254

def isBroadcast (v4 : Ipv4Addr) : Bool := v4 == ⟨255, 255, 255, 255⟩

def isMulticast (v4 : Ipv4Addr) : Bool := 224 ≤ v4.a && v4.a ≤ 239

end Ipv4Addr

/-- The upper and the lower half. -/
def octets (segment : UInt16) : UInt8 × UInt8 := ((segment >>> 8).toUInt8, segment.toUInt8)

/-- The address of two segments. -/
def Ipv4Addr.ofSegments (upper lower : UInt16) : Ipv4Addr :=
  ⟨(octets upper).1, (octets upper).2, (octets lower).1, (octets lower).2⟩

namespace Ipv6Addr

def segments (v6 : Ipv6Addr) : List UInt16 :=
  [v6.s0, v6.s1, v6.s2, v6.s3, v6.s4, v6.s5, v6.s6, v6.s7]

def isLoopback (v6 : Ipv6Addr) : Bool := v6 == ⟨0, 0, 0, 0, 0, 0, 0, 1⟩

def isUnspecified (v6 : Ipv6Addr) : Bool := v6 == ⟨0, 0, 0, 0, 0, 0, 0, 0⟩

def isMulticast (v6 : Ipv6Addr) : Bool := v6.s0 &&& 0xff00 == 0xff00

def toIpv4Mapped (v6 : Ipv6Addr) : Option Ipv4Addr :=
  if v6.segments.take 6 = [0, 0, 0, 0, 0, 0xffff] then some (.ofSegments v6.s6 v6.s7) else none

end Ipv6Addr

def IpAddr.isLoopback : IpAddr → Bool
  | .v4 addr => addr.isLoopback
  | .v6 addr => addr.isLoopback

/-! ## Reading an address -/

/-- A number of one to three decimal digits that starts with no zero but its only one. -/
def parseOctet (cs : List Char) : Option UInt8 :=
  if cs.length ≤ 3 ∧ (cs.head? = some '0' → cs.length = 1) then
    ((parseDigits cs).filter (· < 256)).map UInt8.ofNat
  else none

def parseIpv4 (cs : List Char) : Option Ipv4Addr :=
  match cs.splitOn '.' with
  | [a, b, c, d] => do return ⟨← parseOctet a, ← parseOctet b, ← parseOctet c, ← parseOctet d⟩
  | _ => none

def hexDigit (c : Char) : Option ℕ :=
  if c.isDigit then some (c.toNat - '0'.toNat)
  else if 'a' ≤ c ∧ c ≤ 'f' then some (c.toNat - 'a'.toNat + 10)
  else if 'A' ≤ c ∧ c ≤ 'F' then some (c.toNat - 'A'.toNat + 10)
  else none

/-- One to four hexadecimal digits. -/
def parseGroup (cs : List Char) : Option UInt16 :=
  if cs = [] ∨ 4 < cs.length then none
  else (cs.mapM hexDigit).map (fun digits => UInt16.ofNat (digits.foldl (16 * · + ·) 0))

/-- Groups, the last of which may be an IPv4 address in place of two. -/
def parseGroups (tail4 : Bool) : List (List Char) → Option (List UInt16)
  | [] => some []
  | [last] =>
    match parseGroup last with
    | some group => some [group]
    | none =>
      if tail4 then
        (parseIpv4 last).map (fun v4 =>
          [v4.a.toUInt16 * 256 + v4.b.toUInt16, v4.c.toUInt16 * 256 + v4.d.toUInt16])
      else none
  | group :: groups => do return (← parseGroup group) :: (← parseGroups tail4 groups)

def parseColons (tail4 : Bool) (cs : List Char) : Option (List UInt16) :=
  if cs = [] then some [] else parseGroups tail4 (cs.splitOn ':')

def ofGroups : List UInt16 → Option Ipv6Addr
  | [s0, s1, s2, s3, s4, s5, s6, s7] => some ⟨s0, s1, s2, s3, s4, s5, s6, s7⟩
  | _ => none

/-- Eight groups, where `::` stands for one or more that are zero. -/
def parseIpv6 (cs : List Char) : Option Ipv6Addr :=
  match cut [':', ':'] cs with
  | none => (parseColons true cs).bind ofGroups
  | some (head, tail) => do
    let head ← parseColons false head
    let tail ← parseColons true tail
    if head.length + tail.length < 8 then
      ofGroups (head ++ List.replicate (8 - head.length - tail.length) 0 ++ tail)
    else none

/-- `str::parse::<IpAddr>` -/
def parseIp (host : String) : Option IpAddr :=
  match parseIpv4 host.toList with
  | some v4 => some (.v4 v4)
  | none => (parseIpv6 host.toList).map .v6

example : parseIp "127.0.0.1" = some (.v4 ⟨127, 0, 0, 1⟩) := by decide +kernel

example : parseIp "::ffff:10.0.0.1" = some (.v6 ⟨0, 0, 0, 0, 0, 0xffff, 0x0a00, 1⟩) := by decide +kernel

example : parseIp "example.com" = none := by decide +kernel

end Haruspex.Rust
