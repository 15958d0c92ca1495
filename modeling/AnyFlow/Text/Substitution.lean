namespace AnyFlow.Text

/-- Replaces in what remains of a text after `skip` characters of the last occurrence. -/
def replaceChars (pattern value : List Char) (skip : Nat) : List Char → List Char
  | [] => []
  | c :: cs =>
    match skip with
    | skip + 1 => replaceChars pattern value skip cs
    | 0 =>
      if pattern.isPrefixOf (c :: cs) then
        value ++ replaceChars pattern value (pattern.length - 1) cs
      else c :: replaceChars pattern value 0 cs

/-- Occurrences are replaced from left to right and do not overlap, and the text put in is not
searched again. The pattern must not be empty. -/
def replace (pattern value text : String) : String :=
  String.ofList (replaceChars pattern.toList value.toList 0 text.toList)

end AnyFlow.Text
