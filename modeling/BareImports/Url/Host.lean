import BareImports.Text.Cut
import BareImports.Text.Hex

/-!
# Hosts in brackets

A host in brackets is a version-6 address or a future form.

* `isAddress6`: eight groups of four hexadecimal digits, one run of zero groups possibly left out, the last
  two groups possibly as a version-4 address, a zone possibly behind `%`;
* `isBracketedHost`: what may stand between brackets.
-/

namespace BareImports.Url

open Text

/-- A number from 0 to 255 in decimal, without a leading zero. -/
def isOctet (s : List Char) : Bool :=
  !s.isEmpty && s.length ≤ 3 && s.all Char.isDigit && !(s.length > 1 && s.head? == some '0') &&
    s.foldl (fun n c => n * 10 + (c.toNat - 48)) 0 ≤ 255

/-- Four octets between dots. -/
def isAddress4 (s : List Char) : Bool :=
  let parts := s.splitOn '.'
  parts.length == 4 && parts.all isOctet

/-- One to four hexadecimal digits. -/
def isGroup (s : List Char) : Bool := !s.isEmpty && s.length ≤ 4 && s.all isHexDigit

/-- The groups of an address: a version-4 address at the end counts for two. -/
def groups? (s : List Char) : Option (List (List Char)) :=
  let parts := s.splitOn ':'
  if parts.length < 3 then none
  else match parts.getLast? with
    | some last =>
      if last.contains '.' then
        if isAddress4 last then some (parts.dropLast ++ [['0'], ['0']]) else none
      else some parts
    | none => none

/-- The places of empty groups that have a neighbour on both sides. -/
def innerGaps (parts : List (List Char)) : List Nat :=
  (parts.zipIdx.filter fun (p, i) => p.isEmpty && 0 < i && i + 1 < parts.length).map (·.2)

/-- Whether groups, empty ones included, write an address. -/
def areGroups (parts : List (List Char)) : Bool :=
  if parts.length > 9 then false
  else match innerGaps parts with
    | [] =>
      parts.length == 8 && parts.all isGroup
    | [i] =>
      let front := if (parts.head? == some []) then i - 1 else i
      let back := parts.length - i - 1 - (if parts.getLast? == some [] then 1 else 0)
      let frontOk := parts.head? != some [] || i == 1
      let backOk := parts.getLast? != some [] || i + 2 == parts.length
      frontOk && backOk && front + back < 8 && (parts.filter (!·.isEmpty)).all isGroup
    | _ => false

/-- A version-6 address with an optional zone. -/
def isAddress6 (s : List Char) : Bool :=
  let (addr, zoneOk) := match cut? '%' s with
    | none => (s, true)
    | some (a, zone) => (a, !zone.isEmpty && !zone.contains '%')
  zoneOk && !s.contains '/' && match groups? addr with
    | some parts => areGroups parts
    | none => false

/-- A future form: `v`, hexadecimal digits, a dot and at least one more character. -/
def isFutureHost (s : List Char) : Bool :=
  match s with
  | 'v' :: r => match cut? '.' r with
    | some (v, rest) => !v.isEmpty && v.all isHexDigit && !rest.isEmpty && !rest.contains '\n'
    | none => false
  | _ => false

/-- What may stand between the brackets of an authority. -/
def isBracketedHost (s : List Char) : Bool :=
  if s.head? == some 'v' then isFutureHost s else isAddress6 s

end BareImports.Url
