import AgentRules.Analyzer.Basic

/-! # The command line

The program analyses the texts among its arguments, or the lines of its input if there are none, and
prints a result for each. It stops at the first failure; what was printed stays. -/

namespace AgentRules.CommandLine

/-! ### Arguments -/

/-- What the arguments ask for. -/
structure Options where
  rules : Option String := none
  pretty : Bool := false
  keepMatches : Bool := false
  maxLength : Option Nat := none
  texts : List String := []
deriving Repr, DecidableEq

def isOption (arg : String) : Bool := arg.toList.head? = some '-' && arg ≠ "-"

/-- Sets where the rules are; that is done once at most, with a path that is not empty. -/
def Options.setRules (o : Options) (path : String) : Option Options :=
  if o.rules.isSome || path = "" then none else some { o with rules := some path }

/-- Asks for results in several lines; that is done once at most. -/
def Options.setPretty (o : Options) : Option Options :=
  if o.pretty then none else some { o with pretty := true }

/-- Asks for matches; that is done once at most. -/
def Options.setKeepMatches (o : Options) : Option Options :=
  if o.keepMatches then none else some { o with keepMatches := true }

/-- Sets the length of texts; that is done once at most, with a number. -/
def Options.setMaxLength (o : Options) (numeral : String) : Option Options :=
  if o.maxLength.isSome then none
  else (Text.readNat64 numeral).toOption.map fun n => { o with maxLength := some n }

/-- Where the path of the rules stands that letters behind a dash ask for. -/
inductive PathPlace
  /-- No path is asked for. -/
  | nowhere
  /-- Behind the letter, in the same argument. -/
  | attached (path : String)
  /-- In the next argument. -/
  | nextArgument
deriving Repr, DecidableEq

/-- Reads letters that stand together behind a dash, up to one that takes a path. -/
def readLetters (o : Options) : List Char → Option (Options × PathPlace)
  | [] => some (o, .nowhere)
  | 'p' :: cs => o.setPretty.bind (readLetters · cs)
  | ['r'] => some (o, .nextArgument)
  | 'r' :: '=' :: cs => some (o, .attached (String.ofList cs))
  | 'r' :: cs => some (o, .attached (String.ofList cs))
  | _ => none

/-- The option of a long name, with the value behind its equals sign. -/
def splitLong (arg : String) : String × Option String :=
  let cs := arg.toList
  match cs.dropWhile (· ≠ '=') with
  | _ :: value => (String.ofList (cs.takeWhile (· ≠ '=')), some (String.ofList value))
  | [] => (arg, none)

/-- Reads the arguments, if they can be understood. -/
def Options.read (o : Options) : List String → Option Options
  | [] => some o
  | "--" :: texts => some { o with texts := o.texts ++ texts }
  | arg :: args =>
    if !isOption arg then read { o with texts := o.texts ++ [arg] } args
    else match splitLong arg, args with
      | ("--pretty", none), args => o.setPretty.bind (read · args)
      | ("--keep-matches", none), args => o.setKeepMatches.bind (read · args)
      | ("--rules", some value), args => (o.setRules value).bind (read · args)
      | ("--max-length", some value), args => (o.setMaxLength value).bind (read · args)
      | ("--rules", none), value :: args =>
        if isOption value then none else (o.setRules value).bind (read · args)
      | ("--max-length", none), value :: args =>
        if isOption value then none else (o.setMaxLength value).bind (read · args)
      | _, args =>
        match readLetters o (arg.toList.drop 1), args with
        | some (o, .nowhere), args => read o args
        | some (o, .attached value), args => (o.setRules value).bind (read · args)
        | some (o, .nextArgument), value :: args =>
          if isOption value then none else (o.setRules value).bind (read · args)
        | _, _ => none

def Options.config (o : Options) : Config :=
  { origin := o.rules.elim .builtIn .path
    maxLength := o.maxLength.getD ({} : Config).maxLength
    keepsMatches := o.keepMatches }

/-! ### Running -/

/-- What the program leaves: what it printed and whether it failed. -/
structure Outcome where
  printed : String
  failure : Option Failure := none

/-- The lines of some bytes, without the line ends; a last line may have none. -/
def byteLines (line : List UInt8) : List UInt8 → List (List UInt8)
  | [] => if line.isEmpty then [] else [line.reverse]
  | b :: bs =>
    if b = 10 then
      let line := if line.head? = some 13 then line.tail else line
      line.reverse :: byteLines [] bs
    else byteLines (b :: line) bs

/-- The lines of the input that are not blank. In the place of a line that is no text stands a
failure. -/
def inputTexts (stdin : List UInt8) : List (Except Failure String) :=
  ((byteLines [] stdin).map fun line => (Text.decode line).mapError fun _ => .input .notUtf8).filter
    fun line => match line with
      | .ok text => Text.trim text ≠ ""
      | .error _ => true

/-- Prints the results of some texts. -/
def printAll (a : Analyzer) (pretty : Bool) : List (Except Failure String) → Outcome
  | [] => { printed := "" }
  | text :: rest =>
    match text.bind a.parse with
    | .error e => { printed := "", failure := some e }
    | .ok u =>
      let behind := printAll a pretty rest
      { behind with printed := u.render pretty ++ "\n" ++ behind.printed }

/-- Runs the program. -/
def run (placeAt : String → Place) (stdin : List UInt8) (o : Options) : Outcome :=
  match Analyzer.ofConfig placeAt o.config with
  | .error e => { printed := "", failure := some e }
  | .ok a =>
    printAll a o.pretty (if o.texts.isEmpty then inputTexts stdin else o.texts.map .ok)

/-- The exit code when the arguments are understood. -/
def Outcome.code (o : Outcome) : Nat := if o.failure.isSome then 1 else 0

/-- The exit code when the arguments are not understood. -/
def usageCode : Nat := 2

end AgentRules.CommandLine
