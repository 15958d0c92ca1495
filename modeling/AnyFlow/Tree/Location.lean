import AnyFlow.Json.Record

namespace AnyFlow

structure Span where
  start : Nat
  stop : Nat
deriving DecidableEq, Inhabited

structure Location where
  file : String
  line : Nat
  column : Nat
  span : Span
deriving DecidableEq, Inhabited

open Json

namespace Span

def zero : Span := ⟨0, 0⟩

def toDocument (s : Span) : Document :=
  .record [("start", .ofNat s.start), ("end", .ofNat s.stop)]

def decode : Decoder Span := fun depth d ↦ do
  let r ← Record.ofDocument? ["start", "end"] depth d
  let start ← r.required "start" Decoder.nat
  let stop ← r.required "end" Decoder.nat
  return ⟨start, stop⟩

end Span

namespace Location

def toDocument (l : Location) : Document :=
  .record [("file", .ofText l.file), ("line", .ofNat l.line), ("column", .ofNat l.column),
    ("span", l.span.toDocument)]

def decode : Decoder Location := fun depth d ↦ do
  let r ← Record.ofDocument? ["file", "line", "column", "span"] depth d
  let file ← r.required "file" Decoder.text
  let line ← r.required "line" Decoder.nat
  let column ← r.required "column" Decoder.nat
  let span ← r.withDefault "span" Span.zero Span.decode
  return ⟨file, line, column, span⟩

end Location

end AnyFlow
