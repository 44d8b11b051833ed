/-!
Quoted text: a text between double quotes, in which quotes, backslashes and the control characters
that have a short name are written with a backslash.
-/

namespace ForestWalk

namespace Quoted

/-- How a character is written between quotes. -/
def encodeChar : Char → List Char
  | '"' => ['\\', '"']
  | '\\' => ['\\', '\\']
  | '\t' => ['\\', 't']
  | '\n' => ['\\', 'n']
  | '\r' => ['\\', 'r']
  | '\x00' => ['\\', '0']
  | c => [c]

def encode (text : String) : String :=
  String.ofList ('"' :: text.toList.flatMap encodeChar ++ ['"'])

end Quoted

end ForestWalk
