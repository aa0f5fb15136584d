import Unification.Event
import Unification.Failure
import Unification.Store.Metered
import Unification.Text.Written

namespace Unification

def Refusal.message : Refusal → String
  | .exhausted limit =>
    "the binding store exhausted its limit of " ++ toString limit ++ " variables"
  | .noTransaction => "there is no open transaction in the binding store"

def Refusal.text : Refusal → String
  | .exhausted limit => "Exhausted \x7b limit: " ++ toString limit ++ " \x7d"
  | .noTransaction => "NoTransaction"

def Metered.Error.message : Metered.Error Refusal → String
  | .outOfFuel => "out of fuel"
  | .store e => e.message

def Clash.message : Clash Symbol → String
  | .occursIn v t => "the variable " ++ v.text ++ " occurs in " ++ t.text
  | .mismatch l r => "the terms " ++ l.text ++ " and " ++ r.text ++ " can't be matched"

def Clash.text : Clash Symbol → String
  | .occursIn v t =>
    "OccursIn(OccursInError \x7b variable: " ++ v.text ++ ", term: " ++ t.text ++ " \x7d)"
  | .mismatch l r =>
    "TermMismatch(TermMismatchError \x7b left: " ++ l.text ++ ", right: " ++ r.text ++ " \x7d)"

def Failure.message {ε : Type} (store : ε → String) : Failure Symbol ε → String
  | .clash c => c.message
  | .store e => "the binding store failed: " ++ store e

def Failure.text : Failure Symbol Refusal → String
  | .clash c => c.text
  | .store e => "Store(" ++ e.text ++ ")"

def Mode.remark (mode : Mode) : String :=
  (if mode.strategy = .ranked then " by rank" else "") ++
    (if mode.eager then " with the occurs-check" else "")

def Level.text : Level → String
  | .trace => "TRACE"
  | .debug => "DEBUG"

def Event.message : Event Symbol → String
  | .unifying mode l r => "unifying " ++ l.text ++ " with " ++ r.text ++ mode.remark
  | .mismatch l r => "structural mismatch between " ++ l.text ++ " and " ++ r.text
  | .refused v t => "refusing to bind " ++ v.text ++ " to " ++ t.text
  | .promoting v => "promoting " ++ v.text
  | .linking v root => "linking " ++ v.text ++ " to " ++ (Term.var root).text
  | .shortened link root => "compressing " ++ link.text ++ " to " ++ root.text
  | .collapsed link => "compressing " ++ link.text ++ " to its terminal term"
  | .looped v => v.text ++ " is bound back to itself"
  | .reentered v => v.text ++ " was reached again through its own binding"
  | .cyclic v => v.text ++ " is bound to a cyclic term"
  | .renamed v copy => v.text ++ " is freshened to " ++ copy.text
  | .bound v t => "binding " ++ v.mark ++ " to " ++ t.text
  | .rebound v => v.mark ++ " was bound before, its binding is replaced"
  | .promoted v rank => "incremented the rank of " ++ v.mark ++ " to " ++ toString rank
  | .exhausted limit => "refusing to allocate beyond " ++ toString limit ++ " variables"
  | .began depth => "began transaction at depth " ++ toString depth
  | .committed writes => "committed transaction with " ++ toString writes ++ " writes"
  | .rolledBack writes => "rolled back transaction with " ++ toString writes ++ " writes"
  | .closed kept => (if kept then "committed" else "rolled back") ++ " atomic section"

def Event.line (e : Event Symbol) : String := e.level.text ++ " " ++ e.message

end Unification
