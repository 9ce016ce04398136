import AgentRules.Text.Case

/-! # Index keys

Actions are found by keys. A key is a path, alone or with what the value at that path has to be or
to start with; keys are compared in lower case. The same spelling is used where a key is registered
and where it is looked up. -/

namespace AgentRules

/-- What a key asks of the value at its path. -/
inductive Selector
  /-- Nothing. -/
  | path
  /-- The whole value. -/
  | value (text : String)
  /-- The first characters of the value. -/
  | head (text : String)
deriving Repr, DecidableEq

/-- A path with what is asked of the value there. -/
structure IndexKey where
  path : String
  selector : Selector
deriving Repr, DecidableEq

namespace IndexKey

/-- The key as it is written. -/
def describe (k : IndexKey) : String :=
  match k.selector with
  | .path => k.path
  | .value text => s!"{k.path}=\"{text}\""
  | .head text => k.path ++ "\x7b\"" ++ text ++ "\""

/-- The key as it is looked up. -/
def folded (k : IndexKey) : String := Text.lower k.describe

end IndexKey

def valueKey (path value : String) : String := IndexKey.folded ⟨path, .value value⟩

def headKey (path head : String) : String := IndexKey.folded ⟨path, .head head⟩

end AgentRules
