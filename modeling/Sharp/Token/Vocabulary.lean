import Sharp.Token.Role

/-!
# Reserved words and operators

The vocabulary of the surface language, as tables.
-/

namespace Sharp

/-- The words that share one role. -/
structure WordGroup where
  role : Role
  words : List String

def roleIn? (groups : List WordGroup) (word : String) : Option Role :=
  (groups.find? fun group => group.words.contains word).map WordGroup.role

def keywordGroups : List WordGroup :=
  [ ⟨.keyword .declarator,
      ["class", "const", "ctor", "delegate", "enum", "event", "finalizer", "fn", "interface", "let",
       "prop", "record", "struct"]⟩,
    ⟨.keyword .builtinType,
      ["bool", "byte", "char", "decimal", "double", "dynamic", "float", "int", "long", "nint",
       "nuint", "object", "sbyte", "short", "string", "uint", "ulong", "ushort", "void"]⟩,
    ⟨.keyword .blockWithExpr,
      ["for", "foreach", "while", "elif", "if", "catch", "switch", "fixed", "lock", "do"]⟩,
    ⟨.keyword .blockWithoutExpr, ["try", "finally", "else"]⟩,
    ⟨.keyword .var, ["base", "this"]⟩,
    ⟨.keyword .method, ["nameof", "sizeof", "typeof"]⟩,
    ⟨.keyword .expr, ["break", "continue", "goto", "return", "await", "throw"]⟩,
    ⟨.keyword .blockOrMethod, ["checked", "unchecked"]⟩,
    ⟨.keyword .methodOrOther, ["default"]⟩,
    ⟨.keyword .other,
      ["explicit", "extern", "implicit", "namespace", "operator", "new", "stackalloc", "using",
       "with", "as", "is", "and", "or", "not"]⟩,
    ⟨.modifier .afterAt,
      ["internal", "private", "protected", "public", "sealed", "static", "unsafe", "volatile"]⟩,
    ⟨.modifier .other,
      ["abstract", "async", "immut", "in", "out", "override", "params", "partial", "ref", "virtual",
       "yield"]⟩,
    ⟨.literal .bool, ["true", "false"]⟩,
    ⟨.literal .null, ["null"]⟩ ]

/-- The words that are reserved only in particular positions, by role. -/
def contextKeywordGroups : List WordGroup :=
  [ ⟨.keyword .accessor, ["add", "get", "init", "remove", "set"]⟩,
    ⟨.keyword .var, ["args", "field", "value"]⟩,
    ⟨.keyword .other, ["global", "notnull"]⟩ ]

def keywordRole? (word : String) : Option Role :=
  roleIn? keywordGroups word

def contextKeywordRole? (word : String) : Option Role :=
  roleIn? contextKeywordGroups word

/-- The operators of the surface language, longest first. -/
def operators : List String :=
  [">>>=",
   "??=", "<<=", ">>=", ">>>",
   "..", "::", "+=", "++", "-=", "--", "*=", "/=", "%=", "??", "?.", "!.", "<<", ">>", "&=", "^=",
   "|=", "==", "!=", "<=", ">=", "&&", "||", "=>",
   ".", ";", ",", "(", ")", "\x7b", "\x7d", "?", ":", "=", "+", "-", "*", "/", "%", "&", "^", "|",
   "<", ">", "!", "~", "#", "@", "$"]

/-- The operators that assign to what stands on their left. -/
def assignmentOperators : List String :=
  ["=", "+=", "-=", "*=", "/=", "%=", "??=", "<<=", ">>=", ">>>=", "&=", "^=", "|="]

end Sharp
