import ProtocolProver.Trace.Basic

/-!
# Terms, facts and traces as text

Pairs are written `<a, b>`, the binary uses of `exp`, `mult`, `xor` and `union` with an operator
between their operands, and all other applications with the name of the symbol in front.
-/

namespace ProtocolProver

/-- Texts with a comma between them. -/
def commaList (texts : List String) : String := ", ".intercalate texts

def Var.text (v : Var) : String :=
  let mark := match v.sort with
    | .fresh => "~"
    | .pub => "$"
    | .msg => ""
  mark ++ v.name ++ if v.idx = 0 then "" else "." ++ toString v.idx

def Name.text : Name → String
  | .pub name => "'" ++ name ++ "'"
  | .fresh name idx => "~" ++ name ++ if idx = 0 then "" else "." ++ toString idx

/-- The operator that stands for a symbol between two operands. -/
def Symbol.operator? (f : Symbol) : Option String :=
  if f = .exp then some "^"
  else if f = .mult then some "*"
  else if f = .xor then some "⊕"
  else if f = .union then some "++"
  else none

namespace Term

/-- The text of an application, from the texts of its arguments. An operand that has arguments
itself stands in parentheses. -/
def appText (sig : Signature) (f : Symbol) (args : List Term) (texts : List String) : String :=
  match args, texts, f.operator? with
  | [_, _], _, none =>
    if f = .pair then "<" ++ commaList texts ++ ">"
    else sig.name f ++ "(" ++ commaList texts ++ ")"
  | [a, b], [s, t], some op =>
    let operand (a : Term) (s : String) := if a.args.isEmpty then s else "(" ++ s ++ ")"
    operand a s ++ op ++ operand b t
  | [], _, _ => sig.name f
  | _, _, _ => sig.name f ++ "(" ++ commaList texts ++ ")"

mutual

def text (sig : Signature) : Term → String
  | .var v => v.text
  | .name n => n.text
  | .app f as => appText sig f as (texts sig as)

def texts (sig : Signature) : List Term → List String
  | [] => []
  | a :: as => text sig a :: texts sig as

end

end Term

def Fact.text (sig : Signature) (f : Fact) : String :=
  (if f.isPersistent then "!" else "") ++ f.pred ++ "(" ++ commaList (Term.texts sig f.args) ++ ")"

def Step.text (sig : Signature) (s : Step) : String :=
  let actions :=
    if s.actions.isEmpty then ""
    else " --[" ++ commaList (s.actions.map (Fact.text sig)) ++ "]->"
  let values :=
    if s.subst.isEmpty then ""
    else " with " ++ commaList (s.subst.map fun (v, t) => v.text ++ " = " ++ t.text sig)
  s.rule ++ actions ++ values

/-- One line for each step, with its timepoint. -/
def Trace.text (sig : Signature) (trace : Trace) : String :=
  String.join (trace.zipIdx.map fun (s, i) => "#" ++ toString i ++ ": " ++ s.text sig ++ "\n")

end ProtocolProver
