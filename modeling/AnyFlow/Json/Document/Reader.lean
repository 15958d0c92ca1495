import AnyFlow.Json.Document

namespace AnyFlow.Json

/-- An open container with the entries before the one that is read now, the latest first. -/
inductive Frame
  | array (items : List Document)
  | object (members : List (Quoted × Document)) (key : Quoted)

/-- What the reader may take next, inside the containers `outer`, the innermost first. -/
inductive Reader
  | value (outer : List Frame)
  | firstItem (outer : List Frame)
  | firstKey (outer : List Frame)
  | key (members : List (Quoted × Document)) (outer : List Frame)
  | colon (members : List (Quoted × Document)) (key : Quoted) (outer : List Frame)
  | afterItem (items : List Document) (outer : List Frame)
  | afterMember (members : List (Quoted × Document)) (outer : List Frame)
  | done (d : Document)

namespace Reader

def accept (d : Document) : List Frame → Reader
  | [] => .done d
  | .array items :: outer => .afterItem (d :: items) outer
  | .object members k :: outer => .afterMember ((k, d) :: members) outer

def stepValue (outer : List Frame) : Token → Option Reader
  | .null => some (accept .null outer)
  | .bool b => some (accept (.bool b) outer)
  | .numeral n => some (accept (.numeral n) outer)
  | .text q => some (accept (.text q) outer)
  | .beginArray => some (.firstItem outer)
  | .beginObject => some (.firstKey outer)
  | _ => none

def step : Reader → Token → Option Reader
  | .value outer, t => stepValue outer t
  | .firstItem outer, .endArray => some (accept (.array []) outer)
  | .firstItem outer, t => stepValue (.array [] :: outer) t
  | .firstKey outer, .endObject => some (accept (.object []) outer)
  | .firstKey outer, .text k => some (.colon [] k outer)
  | .key members outer, .text k => some (.colon members k outer)
  | .colon members k outer, .colon => some (.value (.object members k :: outer))
  | .afterItem items outer, .comma => some (.value (.array items :: outer))
  | .afterItem items outer, .endArray => some (accept (.array items.reverse) outer)
  | .afterMember members outer, .comma => some (.key members outer)
  | .afterMember members outer, .endObject => some (accept (.object members.reverse) outer)
  | _, _ => none

def run (r : Reader) (ts : List Token) : Option Reader := ts.foldlM step r

def result? : Reader → Option Document
  | .done d => some d
  | _ => none

end Reader

namespace Document

def ofTokens? (ts : List Token) : Option Document :=
  (Reader.run (.value []) ts).bind Reader.result?

def ofChars? (cs : List Char) : Option Document := (Token.scan cs).bind ofTokens?

def parse? (s : String) : Option Document := ofChars? s.toList

end Document

end AnyFlow.Json
