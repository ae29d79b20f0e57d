import Sharp.Program
import Sharp.Proofs.Spelling

/-!
# Structured statements

The statements of structured control flow, as trees: calls, `return`, branches, loops and `try`.
A tree has a spelling in the surface language and a reference layout in C#.

* `fnSource`: a function with such statements as its body, in the surface language.
* `fnReference`: its layout in C#.
-/

namespace Sharp

/-- A plain identifier: a word that is no number and is reserved nowhere. -/
structure Name where
  text : String
  isWord : isWordSpelling text.toList = true
  unreserved : keywordRole? text = none
  contextFree : contextKeywordRole? text = none

mutual

/-- A structured statement. -/
inductive Stmt where
  /-- `f();` -/
  | call (f : Name)
  /-- `return;` -/
  | leave
  /-- `return x;` -/
  | give (x : Name)
  /-- `if c { .. }` and the branches after it. -/
  | branch (condition : Name) (body : List Stmt) (others : Branches)
  /-- `while c { .. }` -/
  | loop (condition : Name) (body : List Stmt)
  /-- `foreach v in xs { .. }` -/
  | each (element collection : Name) (body : List Stmt)
  /-- `try { .. } finally { .. }` -/
  | attempt (body cleanup : List Stmt)

/-- What follows the first branch of an `if`. -/
inductive Branches where
  | nothing
  /-- `else { .. }` -/
  | last (body : List Stmt)
  /-- `elif c { .. }` or `else if c { .. }` and the branches after it. -/
  | link (isElif : Bool) (condition : Name) (body : List Stmt) (others : Branches)

end

/-! ## The surface language -/

/-- A block in the surface language, after its header. -/
def blockSource (newline : Newline) (header body : String) : String :=
  header ++ " \x7b" ++ newline.text ++ body ++ "\x7d" ++ newline.text

section Source

variable (newline : Newline)

mutual

/-- A statement in the surface language, with a line break after every brace and semicolon. -/
def Stmt.source : Stmt → String
  | .call f => f.text ++ "();" ++ newline.text
  | .leave => "return;" ++ newline.text
  | .give x => "return " ++ x.text ++ ";" ++ newline.text
  | .branch condition body others =>
    blockSource newline ("if " ++ condition.text) (stmtsSource body) ++ others.source
  | .loop condition body => blockSource newline ("while " ++ condition.text) (stmtsSource body)
  | .each element collection body =>
    blockSource newline ("foreach " ++ element.text ++ " in " ++ collection.text) (stmtsSource body)
  | .attempt body cleanup =>
    blockSource newline "try" (stmtsSource body) ++ blockSource newline "finally" (stmtsSource cleanup)

def Branches.source : Branches → String
  | .nothing => ""
  | .last body => blockSource newline "else" (stmtsSource body)
  | .link isElif condition body others =>
    blockSource newline ((if isElif then "elif " else "else if ") ++ condition.text)
      (stmtsSource body) ++ others.source

def stmtsSource : List Stmt → String
  | [] => ""
  | stmt :: stmts => stmt.source ++ stmtsSource stmts

end

/-- A function without parameters, in the surface language. -/
def fnSource (yields : Bool) (name : Name) (body : List Stmt) : String :=
  (if yields then "yield " else "") ++ blockSource newline ("fn " ++ name.text) (stmtsSource newline body)

end Source

/-! ## The reference layout -/

section Reference

variable (settings : LayoutSettings)

/-- A line at the given level. -/
def lineAt (level : Nat) (text : String) : String :=
  String.ofList (List.replicate (level * settings.indentWidth) ' ') ++ text ++ settings.lineEnding.text

/-- A block in C#, after its header. -/
def blockReference (level : Nat) (header body : String) : String :=
  lineAt settings level (header ++ " \x7b") ++ body ++ lineAt settings level "\x7d"

variable (yields : Bool)

mutual

/-- A statement in C#.  In a function that yields, `return` gives the next element or ends them. -/
def Stmt.reference (level : Nat) : Stmt → String
  | .call f => lineAt settings level (f.text ++ "();")
  | .leave => lineAt settings level (if yields then "yield break;" else "return;")
  | .give x =>
    lineAt settings level ((if yields then "yield return " else "return ") ++ x.text ++ ";")
  | .branch condition body others =>
    blockReference settings level ("if (" ++ condition.text ++ ")")
      (stmtsReference (level + 1) body) ++ others.reference level
  | .loop condition body =>
    blockReference settings level ("while (" ++ condition.text ++ ")") (stmtsReference (level + 1) body)
  | .each element collection body =>
    blockReference settings level ("foreach (var " ++ element.text ++ " in " ++ collection.text ++ ")")
      (stmtsReference (level + 1) body)
  | .attempt body cleanup =>
    blockReference settings level "try" (stmtsReference (level + 1) body) ++
      blockReference settings level "finally" (stmtsReference (level + 1) cleanup)

def Branches.reference (level : Nat) : Branches → String
  | .nothing => ""
  | .last body => blockReference settings level "else" (stmtsReference (level + 1) body)
  | .link _ condition body others =>
    blockReference settings level ("else if (" ++ condition.text ++ ")")
      (stmtsReference (level + 1) body) ++ others.reference level

def stmtsReference (level : Nat) : List Stmt → String
  | [] => ""
  | stmt :: stmts => stmt.reference level ++ stmtsReference level stmts

end

/-- A function in C#. -/
def fnReference (name : Name) (body : List Stmt) : String :=
  blockReference settings 0 ("void " ++ name.text ++ "()") (stmtsReference settings yields 1 body)

end Reference

end Sharp
