namespace Unification.Text.Json

/-- Readers take what they need from the front of a text and return the rest. -/
abbrev Reader (α : Type) := List Char → Option (α × List Char)

def isBlank (c : Char) : Bool := c = ' ' || c = '\n' || c = '\t' || c = '\r'

def dropBlank (cs : List Char) : List Char := cs.dropWhile isBlank

def isDigit (c : Char) : Bool := '0' ≤ c && c ≤ '9'

def hexValue? (c : Char) : Option Nat :=
  if isDigit c then some (c.toNat - '0'.toNat)
  else if 'a' ≤ c && c ≤ 'f' then some (c.toNat - 'a'.toNat + 10)
  else if 'A' ≤ c && c ≤ 'F' then some (c.toNat - 'A'.toNat + 10)
  else none

def hex4 : Reader Nat
  | a :: b :: c :: d :: rest => do
    let a ← hexValue? a
    let b ← hexValue? b
    let c ← hexValue? c
    let d ← hexValue? d
    return (((a * 16 + b) * 16 + c) * 16 + d, rest)
  | _ => none

def simpleEscape? : Char → Option Char
  | '"' => some '"'
  | '\\' => some '\\'
  | '/' => some '/'
  | 'b' => some '\x08'
  | 'f' => some '\x0c'
  | 'n' => some '\n'
  | 'r' => some '\r'
  | 't' => some '\t'
  | _ => none

def isHighSurrogate (n : Nat) : Bool := 0xd800 ≤ n && n < 0xdc00

def isLowSurrogate (n : Nat) : Bool := 0xdc00 ≤ n && n < 0xe000

/-- What follows the backslash of an escape. A surrogate counts only as half of a pair. -/
def escape : Reader Char
  | 'u' :: rest => do
    let (n, rest) ← hex4 rest
    if isHighSurrogate n then
      match rest with
      | '\\' :: 'u' :: rest =>
        let (m, rest) ← hex4 rest
        if isLowSurrogate m then
          return (Char.ofNat (0x10000 + (n - 0xd800) * 0x400 + (m - 0xdc00)), rest)
        else none
      | _ => none
    else if isLowSurrogate n then none
    else return (Char.ofNat n, rest)
  | c :: rest => (simpleEscape? c).map fun c ↦ (c, rest)
  | [] => none

/-- What follows the backslash of an escape, checked for its form only. -/
def skipEscape : Reader Unit
  | 'u' :: rest => (hex4 rest).map fun (_, rest) ↦ ((), rest)
  | c :: rest => (simpleEscape? c).map fun _ ↦ ((), rest)
  | [] => none

def stringTail {α : Type} (escaped : Reader α) (plain : Char → α) : Nat → Reader (List α)
  | 0, _ => none
  | _ + 1, [] => none
  | _ + 1, '"' :: rest => some ([], rest)
  | fuel + 1, '\\' :: rest => do
    let (a, rest) ← escaped rest
    let (l, rest) ← stringTail escaped plain fuel rest
    return (a :: l, rest)
  | fuel + 1, c :: rest =>
    if c.toNat < 0x20 then none
    else do
      let (l, rest) ← stringTail escaped plain fuel rest
      return (plain c :: l, rest)

def string : Reader String
  | '"' :: rest => do
    let (cs, rest) ← stringTail escape id (rest.length + 1) rest
    return (String.ofList cs, rest)
  | _ => none

def skipString (rest : List Char) : Option (List Char) :=
  (stringTail skipEscape (fun _ ↦ ()) (rest.length + 1) rest).map Prod.snd

def skipDigits : List Char → Option (List Char)
  | c :: rest => if isDigit c then some (rest.dropWhile isDigit) else none
  | [] => none

def skipInteger : List Char → Option (List Char)
  | '0' :: rest => if (rest.headD ' ' |> isDigit) then none else some rest
  | cs => skipDigits cs

def skipFraction : List Char → Option (List Char)
  | '.' :: rest => skipDigits rest
  | cs => some cs

def skipExponent : List Char → Option (List Char)
  | c :: rest =>
    if c = 'e' || c = 'E' then
      match rest with
      | '+' :: rest => skipDigits rest
      | '-' :: rest => skipDigits rest
      | rest => skipDigits rest
    else some (c :: rest)
  | [] => some []

def skipNumber (cs : List Char) : Option (List Char) := do
  let cs ← skipInteger (if cs.head? = some '-' then cs.tail else cs)
  let cs ← skipFraction cs
  skipExponent cs

mutual

def skipValue : Nat → List Char → Option (List Char)
  | 0, _ => none
  | fuel + 1, cs =>
    match dropBlank cs with
    | 'n' :: 'u' :: 'l' :: 'l' :: rest => some rest
    | 't' :: 'r' :: 'u' :: 'e' :: rest => some rest
    | 'f' :: 'a' :: 'l' :: 's' :: 'e' :: rest => some rest
    | '"' :: rest => skipString rest
    | '[' :: rest =>
      match dropBlank rest with
      | ']' :: rest => some rest
      | rest => skipElements fuel rest
    | '\x7b' :: rest =>
      match dropBlank rest with
      | '\x7d' :: rest => some rest
      | rest => skipMembers fuel rest
    | cs => skipNumber cs

def skipElements : Nat → List Char → Option (List Char)
  | 0, _ => none
  | fuel + 1, cs => do
    let rest ← skipValue fuel cs
    match dropBlank rest with
    | ']' :: rest => some rest
    | ',' :: rest => skipElements fuel rest
    | _ => none

def skipMembers : Nat → List Char → Option (List Char)
  | 0, _ => none
  | fuel + 1, cs =>
    match dropBlank cs with
    | '"' :: rest => do
      let rest ← skipString rest
      match dropBlank rest with
      | ':' :: rest =>
        let rest ← skipValue fuel rest
        match dropBlank rest with
        | '\x7d' :: rest => some rest
        | ',' :: rest => skipMembers fuel rest
        | _ => none
      | _ => none
    | _ => none

end

/-- A value takes at most two rounds for each of its characters. -/
def skip (cs : List Char) : Option (List Char) := skipValue (2 * cs.length + 2) cs

def natural (bound : Nat) (cs : List Char) : Option (Nat × List Char) := do
  let rest ← skipInteger cs
  if rest.head?.any (fun c ↦ c = '.' || c = 'e' || c = 'E') then none
  else
    let digits := cs.takeWhile isDigit
    let n := digits.foldl (fun n c ↦ 10 * n + (c.toNat - '0'.toNat)) 0
    if n < bound then some (n, rest) else none

def whole {α : Type} (read : Reader α) (text : String) : Option α :=
  match read (dropBlank text.toList) with
  | some (a, rest) => if (dropBlank rest).isEmpty then some a else none
  | none => none

end Unification.Text.Json
