/-!
Bytes written in base 64. Characters outside of the alphabet are skipped; a group that is cut off
has to be filled up, and what stands behind the filling is not read.
-/

namespace InlineProject.Yaml.Binary

def sextet? (c : Char) : Option Nat :=
  let n := c.toNat
  if 65 ≤ n && n ≤ 90 then some (n - 65)
  else if 97 ≤ n && n ≤ 122 then some (n - 71)
  else if 48 ≤ n && n ≤ 57 then some (n + 4)
  else if c = '+' then some 62
  else if c = '/' then some 63
  else none

/-- The bytes of a group of sextets: one less than there are sextets. -/
def groupBytes : List Nat → List UInt8
  | [a, b] => [(a * 4 + b / 16).toUInt8]
  | [a, b, c] => [(a * 4 + b / 16).toUInt8, (b % 16 * 16 + c / 4).toUInt8]
  | [a, b, c, d] =>
      [(a * 4 + b / 16).toUInt8, (b % 16 * 16 + c / 4).toUInt8, (c % 4 * 64 + d).toUInt8]
  | _ => []

-- `group` holds the sextets of the current group in order, `fillers` counts those behind them.
def bytesFrom (group : List Nat) (fillers : Nat) : List Char → Option (List UInt8)
  | [] => if group.isEmpty then some [] else none
  | '=' :: rest =>
      if 2 ≤ group.length then
        if 4 ≤ group.length + fillers + 1 then some (groupBytes group)
        else bytesFrom group (fillers + 1) rest
      else bytesFrom group fillers rest
  | c :: rest =>
      match sextet? c with
      | none => bytesFrom group fillers rest
      | some s =>
          if group.length = 3 then
            (bytesFrom [] 0 rest).map (groupBytes (group ++ [s]) ++ ·)
          else bytesFrom (group ++ [s]) 0 rest

def read? (cs : List Char) : Option (List UInt8) := bytesFrom [] 0 cs

end InlineProject.Yaml.Binary
