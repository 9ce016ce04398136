import AgentRules.Json.Lexeme

/-! # Reading JSON

The lexemes of a document are read one by one. What is open is kept on a stack, so a document may be
nested to any depth, and a state says what may come next. -/

namespace AgentRules.Json

/-- An array or an object that is open, with the parts before the one being read, last one first. -/
inductive Frame
  | array (items : List Json)
  | object (members : List (Option String × Json)) (key : Option String)

/-- What may come next. -/
inductive Expecting
  | value
  /-- A value, or the end of the array that has just been opened. -/
  | valueOrClose
  /-- A key of an object with these members, last one first. -/
  | key (members : List (Option String × Json))
  /-- A key, or the end of the object that has just been opened. -/
  | keyOrClose
  /-- The colon behind a key. -/
  | colon (members : List (Option String × Json)) (key : Option String)
  /-- What may stand behind a value. -/
  | done (value : Json)

def startValue (stack : List Frame) : Lexeme → Option (List Frame × Expecting)
  | .atom v => some (stack, .done v)
  | .text s => some (stack, .done (.text s))
  | .openArray => some (.array [] :: stack, .valueOrClose)
  | .openObject => some (stack, .keyOrClose)
  | _ => none

/-- The state behind a lexeme. -/
def next? (stack : List Frame) (state : Expecting) (x : Lexeme) :
    Option (List Frame × Expecting) :=
  match state, stack, x with
  | .value, stack, x => startValue stack x
  | .valueOrClose, .array _ :: below, .closeArray => some (below, .done (.array []))
  | .valueOrClose, stack, x => startValue stack x
  | .keyOrClose, stack, .closeObject => some (stack, .done (.object []))
  | .keyOrClose, stack, .text k => some (stack, .colon [] k)
  | .key members, stack, .text k => some (stack, .colon members k)
  | .colon members k, stack, .colon => some (.object members k :: stack, .value)
  | .done v, .array items :: below, .comma => some (.array (v :: items) :: below, .value)
  | .done v, .array items :: below, .closeArray =>
    some (below, .done (.array (v :: items).reverse))
  | .done v, .object members k :: below, .comma => some (below, .key ((k, v) :: members))
  | .done v, .object members k :: below, .closeObject =>
    some (below, .done (.object ((k, v) :: members).reverse))
  | _, _, _ => none

/-- Reads lexemes up to the end of the document. -/
def readFrom (stack : List Frame) (state : Expecting) : List Lexeme → Option Json
  | [] =>
    match stack, state with
    | [], .done v => some v
    | _, _ => none
  | x :: xs =>
    match next? stack state x with
    | some (stack, state) => readFrom stack state xs
    | none => none

def read? (document : String) : Option Json :=
  (lexemes? document.toList).bind (readFrom [] .value)

end AgentRules.Json
