/-!
Alternatives written out for a reader: each one between single quotes, commas between
them, and a word such as "or" before the last.
-/
namespace Scriptlet.Text

def quoted (s : String) : String :=
  "'" ++ s ++ "'"

/-- The items in quotes, with `last` in place of the last comma. -/
def alternatives (last : String) : List String → String
  | [] => ""
  | [a] => quoted a
  | [a, b] => quoted a ++ " " ++ last ++ " " ++ quoted b
  | a :: b :: rest => quoted a ++ ", " ++ alternatives last (b :: rest)

end Scriptlet.Text
