import AnyFlow.Finding.Report

namespace AnyFlow

structure Emitter where
  sink : List Finding
  seen : List FindingKey
  emitted : Nat
deriving DecidableEq

namespace Emitter

/-- The sink belongs to the host and may hold findings of its own. -/
def new (sink : List Finding) : Emitter := ⟨sink, [], 0⟩

/-- Tells whether the finding was handed on. -/
def emit (e : Emitter) (f : Finding) : Bool × Emitter :=
  if f.key ∈ e.seen then (false, e)
  else (true, ⟨e.sink ++ [f], f.key :: e.seen, e.emitted + 1⟩)

def report (e : Emitter) (anchor : Node) (m : Message) (data : List (String × String)) :
    Bool × Emitter := e.emit (.ofNode anchor m data)

end Emitter

inductive EmitterCall
  | emit (f : Finding)
  | report (anchor : Node) (m : Message) (data : List (String × String))

namespace Emitter

def perform (e : Emitter) : EmitterCall → Bool × Emitter
  | .emit f => e.emit f
  | .report anchor m data => e.report anchor m data

def performAll (e : Emitter) : List EmitterCall → List Bool × Emitter
  | [] => ([], e)
  | c :: calls =>
    let later := (e.perform c).2.performAll calls
    ((e.perform c).1 :: later.1, later.2)

end Emitter

end AnyFlow
