import Sharp.Token.Bracket
import Sharp.Walk

/-!
# The arms of a switch

Both the switch statement and the switch expression are a subject and, in braces, arms of the form
`pattern => body`.
-/

namespace Sharp

structure SwitchParts where
  subject : List Token
  opening : Token
  inside : List Token
  closing : Token
  after : List Token

def splitSwitch (t : Token) (ts : List Token) : Except Fault SwitchParts :=
  match splitTop (·.isOp "\x7b") ts with
  | none => .error (.missing t .leftBrace)
  | some head =>
    if (significant head.before).isEmpty then .error (.missing t .switchSubject)
    else
      match splitClose .brace head.after with
      | none => .error (.missing head.found .rightBrace)
      | some body => .ok ⟨head.before, head.found, body.before, body.found, body.after⟩

/-- An arm `pattern => body`. -/
structure Arm where
  pattern : List Token
  arrow : Token
  body : List Token
  isBlock : Bool
  /-- The `,` or `;` after the body. -/
  separator : Option Token

/-- Does the pattern match everything? -/
def Arm.isDefault (arm : Arm) : Bool :=
  match significant arm.pattern with
  | [t] => t.text == "_"
  | _ => false

def Token.isArmSeparator (t : Token) : Bool :=
  t.isOp "," || t.isOp ";"

/-- The arm with the given head whose body starts at the token `first`, and the tokens after it.
With `blocks`, the body may stand in braces; otherwise it reaches up to a separator. -/
def splitArmBody (blocks : Bool) (head : Split) (first : Token) (more : List Token) :
    Except Fault (Parsed Arm) :=
  if blocks && first.isOp "\x7b" then
    match splitClose .brace more with
    | none => .error (.missing first .rightBrace)
    | some body => .ok ⟨⟨head.before, head.found, body.before, true, none⟩, body.after⟩
  else if first.isArmSeparator then .error (.missing head.found .switchArmBody)
  else
    match splitTop Token.isArmSeparator (first :: more) with
    | some body => .ok ⟨⟨head.before, head.found, body.before, false, some body.found⟩, body.after⟩
    | none => .ok ⟨⟨head.before, head.found, first :: more, false, none⟩, []⟩

/-- Takes one arm, or a token between arms; `arms` have been taken. -/
def splitArmRound (blocks : Bool) (arms : List Arm) (first : Token) (more : List Token) :
    Reading (Step (List Arm) (List Arm)) :=
  if first.isTrivia || first.isArmSeparator then return .next arms more
  else
    match splitTop (·.isOp "=>") (first :: more) with
    | none => .fail (.missing first .switchArmArrow)
    | some head => do
      note head.found (.operator .lambda)
      if head.before.isEmpty then .fail (.missing head.found .pattern)
      match skipTrivia head.after with
      | [] => .fail (.missing head.found .switchArmBody)
      | bodyFirst :: bodyMore =>
        match splitArmBody blocks head bodyFirst bodyMore with
        | .error fault => .fail fault
        | .ok arm => return .next (arms ++ [arm.value]) arm.rest

def splitArms (blocks : Bool) (ts : List Token) : Reading (List Arm) :=
  walk (splitArmRound blocks) (fun arms => return arms) [] ts

end Sharp
