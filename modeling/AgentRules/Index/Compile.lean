import AgentRules.Chain.Walk
import AgentRules.Expr.Parser
import AgentRules.Index.Key

/-! # Compiling an expression

An expression is compiled into keys and a chain. As long as its steps go down or take segments they
are written out into paths, one for each choice of child indices; a comparison for equality, or with
a short head, becomes part of the key. Everything from there on is left to the chain.

Tables and sets are looked up while compiling, and a range of children that is empty is refused, so
nothing about an expression can turn out wrong later. -/

namespace AgentRules

/-- What an expression is compiled into. -/
structure CompiledPath where
  expression : String
  keys : List IndexKey := []
  /-- The segments that have to be announced, with the path of the node that they are part of. -/
  ranges : List (String × WordRange) := []
  chain : Chain := []
  /-- Whether the expression asks that nothing is found. -/
  usesIsNull : Bool := false
  /-- The text that the expression stands for, if it is a quoted one. -/
  fixedValue : Option String := none

/-- What has been compiled so far. -/
structure Draft where
  paths : List String := []
  selector : Selector := .path
  /-- Whether what follows is left to the chain. -/
  isDynamic : Bool := false
  steps : Chain := []
  ranges : List (String × WordRange) := []
  usesIsNull : Bool := false

/-- The indices that a step down tries, if there are any. -/
def resolveIndices (indices : IndexSpec) (name : String) : Except Fault IndexRange :=
  let range := indices.resolve name
  if range.isEmpty then .error (.emptyIndexRange indices name range.stop) else .ok range

/-- A step of an expression as a step of a chain. -/
def PathStep.compile (r : Registry) : PathStep → Except Fault Step
  | down indices name => (resolveIndices indices name).map (.down · name)
  | up => .ok (.move .up)
  | next count => .ok (.move (.next count))
  | prev count => .ok (.move (.prev count))
  | backToFull => .ok (.move .backToFull)
  | words range => .ok (.change (.words range))
  | equals text => .ok (.test (.equals text))
  | differs text => .ok (.test (.differs text))
  | startsWith text => .ok (.test (.startsWith text))
  | endsWith text => .ok (.test (.endsWith text))
  | contains text => .ok (.test (.contains text))
  | inSet set => (r.set set).map fun s => .test (.inSet s)
  | lookup table default => (r.table table).map fun t => .change (.lookup t default)

/-- A function as a step of a chain. -/
def Wrapper.compile (r : Registry) : Wrapper → Except Fault Step
  | isNull => .ok .isNull
  | cleanVersion => .ok (.change .cleanVersion)
  | normalizeBrand => .ok (.change .normalizeBrand)
  | concat (some before) (some after) => .ok (.change (.concat before after))
  | concat (some before) none => .ok (.change (.concatBefore before))
  | concat none (some after) => .ok (.change (.concatAfter after))
  | concat none none => .error .concatEmpty
  | lookup table default => (r.table table).map fun t => .change (.lookup t default)
  | lookupByHead table default => (r.table table).map fun t => .change (.lookupByHead t default)
  | inTableByHead table => (r.table table).map fun t => .test (.inTableByHead t)

namespace Draft

def push (d : Draft) (s : Step) : Draft := { d with isDynamic := true, steps := d.steps ++ [s] }

/-- The draft with its paths followed by every choice of a child. -/
def descend (d : Draft) (range : IndexRange) (name : String) : Draft :=
  { d with paths := d.paths.flatMap fun p => range.toList.map fun i => NodePath.child p i name }

/-- The draft with its paths followed by a run of segments. -/
def takeWords (d : Draft) (range : WordRange) : Draft :=
  { d with
    ranges := d.ranges ++ d.paths.map (·, range)
    paths := d.paths.map (· ++ range.pathForm) }

/-- The draft with a value to start with: the first characters go into the key, and only a longer
text has to be compared again. -/
def startWith (d : Draft) (text : String) : Draft :=
  if text = "" then d
  else
    let d := { d with selector := .head (headOf text headLength), isDynamic := true }
    if text.length ≤ headLength then d
    else { d with steps := d.steps ++ [.test (.startsWith text)] }

/-- The draft with one step of the expression more. -/
def step (r : Registry) (d : Draft) (s : PathStep) : Except Fault Draft :=
  if d.isDynamic then (s.compile r).map d.push
  else match s with
    | .down indices name => (resolveIndices indices name).map (d.descend · name)
    | .words range => .ok (d.takeWords range)
    | .equals text => .ok { d with selector := .value text, isDynamic := true }
    | .startsWith text => .ok (d.startWith text)
    | s => (s.compile r).map d.push

/-- The draft of an expression, behind what is there already. -/
def visit (r : Registry) (outermost : Bool) (d : Draft) : Expr → Except Fault Draft
  | .fixed text => .error (.fixedInside text)
  | .path root steps => steps.foldlM (step r) { d with paths := [root] }
  | .wrapped .isNull inner steps => do
    if !outermost then throw .isNullInside
    let d ← visit r false { d with usesIsNull := true, steps := d.steps ++ [.isNull] } inner
    steps.foldlM (step r) d
  | .wrapped wrapper inner steps => do
    let d ← visit r false d inner
    let s ← wrapper.compile r
    steps.foldlM (step r) (d.push s)

end Draft

namespace CompiledPath

/-- Compiles an expression. -/
def compile (r : Registry) (expression : String) : Except Fault CompiledPath := do
  match ← Expr.parse expression with
  | .fixed text => return { expression, fixedValue := some text }
  | e =>
    let d ← Draft.visit r true {} e
    return {
      expression
      keys := d.paths.map (⟨·, d.selector⟩)
      ranges := d.ranges
      chain := d.steps
      usesIsNull := d.usesIsNull }

/-- Compiles what a rule requires. Only whether its chain can be walked matters. -/
def compileRequire (r : Registry) (expression : String) : Except Fault CompiledPath := do
  let c ← compile r expression
  if c.fixedValue.isSome then throw (.fixedRequirement expression)
  return { c with chain := c.chain.prune }

def compileExtract (r : Registry) (expression : String) : Except Fault CompiledPath := do
  let c ← compile r expression
  if c.usesIsNull then throw (.isNullExtract expression)
  return c

end CompiledPath

end AgentRules
