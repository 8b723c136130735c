import FairShare.Json
import FairShare.Json.Text

/-!
# Writing JSON

Two layouts: `compact` without a blank, and `pretty` with one item a line, indented by two spaces.
Characters outside ASCII stand for themselves. A string without content is written as half a
surrogate pair, so that it reads back as what it is.
-/

namespace FairShare.Json

def stringChars : Option String → List Char
  | some s => ['"'] ++ escape s.toList ++ ['"']
  | none => ['"', '\\', 'u', 'd', '8', '0', '0', '"']

def scalarChars : Json → List Char
  | .null => ['n', 'u', 'l', 'l']
  | .boolean true => ['t', 'r', 'u', 'e']
  | .boolean false => ['f', 'a', 'l', 's', 'e']
  | .number n => n.chars
  | .string s => stringChars s
  | _ => []

mutual

def compactChars : Json → List Char
  | .array items => ['['] ++ compactItems items ++ [']']
  | .object fields => ['\x7b'] ++ compactFields fields ++ ['\x7d']
  | j => scalarChars j

def compactItems : List Json → List Char
  | [] => []
  | [j] => compactChars j
  | j :: js => compactChars j ++ [','] ++ compactItems js

def compactFields : List (Option String × Json) → List Char
  | [] => []
  | [(k, j)] => stringChars k ++ [':'] ++ compactChars j
  | (k, j) :: fs => stringChars k ++ [':'] ++ compactChars j ++ [','] ++ compactFields fs

end

def compact (j : Json) : String := String.ofList (compactChars j)

/-- A new line, `depth` levels in. -/
def newLine (depth : Nat) : List Char := '\n' :: List.replicate (2 * depth) ' '

mutual

def prettyChars (depth : Nat) : Json → List Char
  | .array [] => ['[', ']']
  | .array items => ['['] ++ prettyItems (depth + 1) items ++ newLine depth ++ [']']
  | .object [] => ['\x7b', '\x7d']
  | .object fields => ['\x7b'] ++ prettyFields (depth + 1) fields ++ newLine depth ++ ['\x7d']
  | j => scalarChars j

def prettyItems (depth : Nat) : List Json → List Char
  | [] => []
  | [j] => newLine depth ++ prettyChars depth j
  | j :: js => newLine depth ++ prettyChars depth j ++ [','] ++ prettyItems depth js

def prettyFields (depth : Nat) : List (Option String × Json) → List Char
  | [] => []
  | [(k, j)] => newLine depth ++ stringChars k ++ [':', ' '] ++ prettyChars depth j
  | (k, j) :: fs =>
    newLine depth ++ stringChars k ++ [':', ' '] ++ prettyChars depth j ++ [','] ++
      prettyFields depth fs

end

def pretty (j : Json) : String := String.ofList (prettyChars 0 j)

end FairShare.Json
