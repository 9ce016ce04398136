import AgentRules.Chain.Step

/-! # Walking a chain

A walk runs the steps of a chain one after another and ends at a node with a value, or nowhere.
Going down tries the children in order and takes the first from which the rest of the chain can be
walked, so a walk is a search in depth that stops at its first success.

`prune` leaves out the last steps of a chain as far as they cannot fail: they do not change whether
it can be walked. -/

namespace AgentRules

/-- A list of steps. -/
abbrev Chain := List Step

namespace Chain

/-- Where the walk from a node ends; without a value it starts with the text of the node. -/
def walk (t : SyntaxTree) : Chain → Nat → Option String → Option (Nat × String)
  | [], node, value => some (node, value.getD (t.text node))
  | step :: rest, node, value =>
    match step with
    | .isNull => walk t rest node value
    | .move m => (m.target t node).bind fun target => walk t rest target none
    | .down range name =>
      (t.candidates node range name).findSome? fun child => walk t rest child none
    | .test c =>
      let actual := value.getD (t.text node)
      if c.accepts actual then walk t rest node (some actual) else none
    | .change c =>
      (c.apply (value.getD (t.text node))).bind fun changed => walk t rest node (some changed)

/-- The chain without the last steps that cannot fail. -/
def prune (chain : Chain) : Chain := Text.dropEndWhile (!·.canFail) chain

def describe (chain : Chain) : List String := chain.map Step.describe

end Chain

end AgentRules
