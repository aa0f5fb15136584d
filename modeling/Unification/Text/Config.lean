import Unification.Store.Config
import Unification.Var
import Unification.Text.Json

namespace Unification

open Text

namespace Config

def limitKey : String := "variable_limit"

def readLimit (cs : List Char) : Option (Option Nat × List Char) :=
  match Json.dropBlank cs with
  | 'n' :: 'u' :: 'l' :: 'l' :: rest => some (none, rest)
  | cs => (Json.natural Var.bound cs).map fun (n, rest) ↦ (some n, rest)

/-- Reads the members of an object from a key on. Unknown keys are skipped, and the limit may be
given once. -/
def readMembers : Nat → Option Config → Json.Reader Config
  | 0, _, _ => none
  | fuel + 1, found, cs => do
    let (key, rest) ← Json.string (Json.dropBlank cs)
    match Json.dropBlank rest with
    | ':' :: rest =>
      if key = limitKey then
        match found with
        | some _ => none
        | none =>
          let (limit, rest) ← readLimit rest
          next fuel (some ⟨limit⟩) rest
      else
        let rest ← Json.skip rest
        next fuel found rest
    | _ => none
where
  next (fuel : Nat) (found : Option Config) (cs : List Char) : Option (Config × List Char) :=
    match Json.dropBlank cs with
    | '\x7d' :: rest => some (found.getD {}, rest)
    | ',' :: rest => readMembers fuel found rest
    | _ => none

/-- An object with the limit under its key, or a list that holds the limit or nothing. -/
def read : Json.Reader Config
  | '\x7b' :: rest =>
    match Json.dropBlank rest with
    | '\x7d' :: rest => some ({}, rest)
    | rest => readMembers (rest.length + 1) none rest
  | '[' :: rest =>
    match Json.dropBlank rest with
    | ']' :: rest => some ({}, rest)
    | rest => do
      let (limit, rest) ← readLimit rest
      match Json.dropBlank rest with
      | ']' :: rest => some (⟨limit⟩, rest)
      | _ => none
  | _ => none

def ofText? (text : String) : Option Config := Json.whole read text

def text (c : Config) : String :=
  "\x7b\"" ++ limitKey ++ "\":" ++ c.variableLimit.elim "null" toString ++ "\x7d"

end Config

def Var.ofText? (text : String) : Option Var :=
  (Json.whole (Json.natural Var.bound) text).map Var.mk

end Unification
