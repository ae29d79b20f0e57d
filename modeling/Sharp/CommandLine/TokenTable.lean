import Sharp.Token.Basic

/-!
# The table of tokens

* `quoteText`: a text in quotes, in which every character can be seen.
* `padLeft`, `padRight`: columns.
* `Token.row`, `tokenRows`: the table.
-/

namespace Sharp

/-- Stretches of characters that leave no mark of their own: controls, marks on other characters,
spaces other than the plain one, and characters for private use. -/
def hiddenRanges : List (Nat × Nat) :=
  [(0x00, 0x1F), (0x7F, 0xA0), (0xAD, 0xAD), (0x300, 0x36F), (0x483, 0x489), (0x591, 0x5BD),
    (0x600, 0x605), (0x610, 0x61A), (0x61C, 0x61C), (0x64B, 0x65F), (0x1AB0, 0x1AFF),
    (0x1DC0, 0x1DFF), (0x1680, 0x1680), (0x2000, 0x200F), (0x2028, 0x202F), (0x205F, 0x206F),
    (0x20D0, 0x20FF), (0x3000, 0x3000), (0x302A, 0x302D), (0x3099, 0x309A), (0xE000, 0xF8FF),
    (0xFE00, 0xFE0F), (0xFE20, 0xFE2F), (0xFEFF, 0xFEFF), (0xFFF0, 0xFFFB), (0xFFFE, 0xFFFF),
    (0xE0000, 0x10FFFF)]

def isHidden (c : Char) : Bool :=
  hiddenRanges.any fun (first, last) => first ≤ c.toNat && c.toNat ≤ last

def quoteChar (c : Char) : List Char :=
  match c with
  | '"' => ['\\', '"']
  | '\\' => ['\\', '\\']
  | '\n' => ['\\', 'n']
  | '\r' => ['\\', 'r']
  | '\t' => ['\\', 't']
  | '\x00' => ['\\', '0']
  | c =>
    if isHidden c then ['\\', 'u', '\x7b'] ++ Nat.toDigits 16 c.toNat ++ ['\x7d']
    else [c]

def quoteText (text : String) : String :=
  String.ofList ('"' :: text.toList.flatMap quoteChar ++ ['"'])

def padLeft (width : Nat) (text : String) : String :=
  String.ofList (List.replicate (width - text.length) ' ') ++ text

def padRight (width : Nat) (text : String) : String :=
  text ++ String.ofList (List.replicate (width - text.length) ' ')

/-- A token in the table: where it stands, what it is, and its text. -/
def Token.row (t : Token) : String :=
  padLeft 5 (Nat.repr t.start) ++ ".." ++ padRight 5 (Nat.repr t.stop) ++ " " ++
    padRight 16 t.category.label ++ " " ++ padRight 36 ((t.role.map Role.label).getD "-") ++ " " ++
    quoteText t.text

/-- The lines of the table of some tokens, without line breaks and spaces. -/
def tokenRows (ts : List Token) : List String :=
  (ts.filter fun t => !t.isBlank).map fun t => t.row ++ "\n"

end Sharp
