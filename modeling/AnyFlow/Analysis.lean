import AnyFlow.Finding.Report
import AnyFlow.Rule.Apply

namespace AnyFlow

inductive Event
  | started (file : String) (nodes : Nat)
  | typeUnavailable (cause : Unresolved)
  | duplicateDropped (node : Nat) (message : Message)
  | ruleSkipped (file : String) (rule : Rule) (node : Nat) (failure : Failure)
  | completed (file : String) (findings : Nat)
deriving DecidableEq

namespace Event

def isWarning : Event → Bool
  | .ruleSkipped .. => true
  | _ => false

end Event

namespace Context

variable (cx : Context)

/-- A rule that fails leaves one step, and the other rules go on. -/
def stepsOfRule (n : Node) (rule : Rule) : List Step :=
  match rule.apply cx n with
  | .ok steps => steps
  | .error failure => [.skipped rule n.id failure]

def stepsOfNode (n : Node) : List Step :=
  (Rule.matching cx.tree n).flatMap (cx.stepsOfRule n)

def steps : List Step := cx.tree.preorder.flatMap cx.stepsOfNode

end Context

def Report.eventsOf (file : String) : Report → List Step → List Event
  | _, [] => []
  | r, .unresolved cause :: steps => .typeUnavailable cause :: eventsOf file r steps
  | r, .skipped rule node failure :: steps =>
    .ruleSkipped file rule node failure :: eventsOf file r steps
  | r, .found f :: steps =>
    if r.isNew f then eventsOf file (r.add f) steps
    else .duplicateDropped f.anchor f.message :: eventsOf file r steps

namespace Context

variable (cx : Context)

def report : Report := Report.empty.addAll (cx.steps.filterMap Step.finding?)

def findings : List Finding := cx.report.findings

def events : List Event :=
  .started cx.tree.file cx.tree.size :: Report.empty.eventsOf cx.tree.file cx.steps ++
    [.completed cx.tree.file cx.report.count]

def warnings : List Event := cx.events.filter Event.isWarning

end Context

def analyze (t : Tree) (o : Oracle) (options : Options) : List Finding :=
  (Context.mk t o options).findings

def analyzeFiles (files : List (Tree × Oracle)) (options : Options) : List (List Finding) :=
  files.map fun (t, o) ↦ analyze t o options

end AnyFlow
