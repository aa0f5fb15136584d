import Unification.Layer
import Unification.Symbol
import Unification.Term.Tree
import Unification.Text.Quoted

namespace Unification

open Text

def Var.text (v : Var) : String := "IntVar(" ++ toString v.id ++ ")"

def Var.mark (v : Var) : String := "?" ++ toString v.id

def Symbol.text (args : List String) : Symbol → String
  | .int n => "Int(" ++ toString n ++ ")"
  | .pair => "Pair(" ++ ", ".intercalate args ++ ")"
  | .fn name => "Apply(" ++ quoted name ++ ", [" ++ ", ".intercalate args ++ "])"

mutual

def Term.text : Term Symbol → String
  | .var v => "Variable(" ++ v.text ++ ")"
  | .node f args => "Structured(" ++ f.text (Term.textList args) ++ ")"

def Term.textList : List (Term Symbol) → List String
  | [] => []
  | t :: ts => t.text :: Term.textList ts

end

mutual

def Tree.text : Tree Symbol → String
  | .node f children => "Pure(" ++ f.text (Tree.textList children) ++ ")"

def Tree.textList : List (Tree Symbol) → List String
  | [] => []
  | t :: ts => t.text :: Tree.textList ts

end

def Layer.text (l : Layer Symbol (Term Symbol)) : String := l.symbol.text (Term.textList l.slots)

end Unification
