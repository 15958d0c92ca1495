import AnyFlow.Finding.Basic

namespace AnyFlow

structure RuleInfo where
  name : String
  description : String
  kind : String
  category : String
  recommended : Bool
deriving DecidableEq

def ruleInfo : RuleInfo where
  name := ruleId
  description :=
    "Detects usages of any which can cause type safety holes within your codebase"
  kind := "problem"
  category := "Possible Errors"
  recommended := false

end AnyFlow
