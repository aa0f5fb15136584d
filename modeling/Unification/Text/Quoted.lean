namespace Unification.Text

def hexDigit (n : Nat) : Char :=
  Char.ofNat (if n < 10 then '0'.toNat + n else 'a'.toNat + (n - 10))

def hexDigits : Nat → Nat → List Char → List Char
  | 0, _, cs => cs
  | fuel + 1, n, cs =>
    let cs := hexDigit (n % 16) :: cs
    if n / 16 = 0 then cs else hexDigits fuel (n / 16) cs

def isControl (c : Char) : Bool := c.toNat < 0x20 || (0x7f ≤ c.toNat && c.toNat < 0xa0)

def quoteChar (c : Char) : List Char :=
  if c = '"' then ['\\', '"']
  else if c = '\\' then ['\\', '\\']
  else if c = '\n' then ['\\', 'n']
  else if c = '\r' then ['\\', 'r']
  else if c = '\t' then ['\\', 't']
  else if c.toNat = 0 then ['\\', '0']
  else if isControl c then "\\u\x7b".toList ++ hexDigits 2 c.toNat "\x7d".toList
  else [c]

/-- A name in double quotes. Control characters are escaped and all others stand as they are. -/
def quoted (s : String) : String :=
  "\"" ++ String.ofList (s.toList.flatMap quoteChar) ++ "\""

end Unification.Text
