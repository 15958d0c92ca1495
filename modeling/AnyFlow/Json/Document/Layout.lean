import AnyFlow.Json.Document

namespace AnyFlow.Json.Document

def compactChars (d : Document) : List Char := d.tokens.flatMap Token.write

def compact (d : Document) : String := String.ofList d.compactChars

def lineBreak (level : Nat) : List Char := '\n' :: List.replicate (2 * level) ' '

mutual

def indentedChars (level : Nat) : Document → List Char
  | .null => Token.write .null
  | .bool b => Token.write (.bool b)
  | .numeral n => n.write
  | .text q => q.write
  | .array [] => ['[', ']']
  | .array (d :: ds) =>
    '[' :: lineBreak (level + 1) ++ indentedChars (level + 1) d ++
      indentedItems (level + 1) ds ++ lineBreak level ++ [']']
  | .object [] => ['\x7b', '\x7d']
  | .object ((k, d) :: ms) =>
    '\x7b' :: lineBreak (level + 1) ++ k.write ++ [':', ' '] ++ indentedChars (level + 1) d ++
      indentedMembers (level + 1) ms ++ lineBreak level ++ ['\x7d']
termination_by structural d => d

def indentedItems (level : Nat) : List Document → List Char
  | [] => []
  | d :: ds => ',' :: lineBreak level ++ indentedChars level d ++ indentedItems level ds
termination_by structural ds => ds

def indentedMembers (level : Nat) : List (Quoted × Document) → List Char
  | [] => []
  | (k, d) :: ms =>
    ',' :: lineBreak level ++ k.write ++ [':', ' '] ++ indentedChars level d ++
      indentedMembers level ms
termination_by structural ms => ms

end

def indented (d : Document) : String := String.ofList (d.indentedChars 0)

end AnyFlow.Json.Document
