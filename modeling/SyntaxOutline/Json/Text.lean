import SyntaxOutline.Json.Token

/-! # JSON texts

Reading and writing JSON. The reader folds over the tokens of a text with the arrays and objects
that are still open on a stack, so nesting is unbounded. The writer uses no blanks. -/
namespace SyntaxOutline.Json

/-- An open array or object, with what has been read of it, the last first. -/
inductive Frame where
  | array (items : List Json)
  | object (fields : List (Option String × Json)) (name : Option String)
deriving BEq, Repr

/-- What may come next. -/
inductive Awaiting where
  | value
  | firstItem
  | firstName
  | name (fields : List (Option String × Json))
  | colon (fields : List (Option String × Json)) (name : Option String)
  | ended (value : Json)
deriving BEq, Repr

structure Reader where
  stack : List Frame
  awaiting : Awaiting
deriving BEq, Repr

namespace Reader

/-- Takes a token where a value has to start. -/
def startValue (stack : List Frame) : Token → Option Reader
  | .openArray => some ⟨.array [] :: stack, .firstItem⟩
  | .openObject => some ⟨stack, .firstName⟩
  | .string text => some ⟨stack, .ended (.string text)⟩
  | .word value => some ⟨stack, .ended value⟩
  | _ => none

/-- Takes a token where a value has ended. -/
def endValue (stack : List Frame) (value : Json) (token : Token) : Option Reader :=
  match stack, token with
  | .array items :: below, .comma => some ⟨.array (value :: items) :: below, .value⟩
  | .array items :: below, .closeArray => some ⟨below, .ended (.array (value :: items).reverse)⟩
  | .object fields name :: below, .comma => some ⟨below, .name ((name, value) :: fields)⟩
  | .object fields name :: below, .closeObject =>
    some ⟨below, .ended (.object ((name, value) :: fields).reverse)⟩
  | _, _ => none

def step (r : Reader) (token : Token) : Option Reader :=
  match r.awaiting, token with
  | .value, _ => startValue r.stack token
  | .firstItem, .closeArray =>
    match r.stack with
    | .array items :: below => some ⟨below, .ended (.array items.reverse)⟩
    | _ => none
  | .firstItem, _ => startValue r.stack token
  | .firstName, .closeObject => some ⟨r.stack, .ended (.object [])⟩
  | .firstName, .string name => some ⟨r.stack, .colon [] name⟩
  | .name fields, .string name => some ⟨r.stack, .colon fields name⟩
  | .colon fields name, .colon => some ⟨.object fields name :: r.stack, .value⟩
  | .ended value, _ => endValue r.stack value token
  | _, _ => none

def finish (r : Reader) : Option Json :=
  match r.stack, r.awaiting with
  | [], .ended value => some value
  | _, _ => none

end Reader

/-- The value that a sequence of tokens writes. -/
def ofTokens (tokens : List Token) : Option Json :=
  (tokens.foldlM Reader.step ⟨[], .value⟩).bind Reader.finish

def parse (text : String) : Option Json := (scan text.toList).bind ofTokens

mutual

/-- The tokens of a value, in front of others. -/
def tokens : Json → List Token → List Token
  | .array [], rest => .openArray :: .closeArray :: rest
  | .array (item :: items), rest => .openArray :: tokens item (itemTokens items rest)
  | .object [], rest => .openObject :: .closeObject :: rest
  | .object ((name, value) :: fields), rest =>
    .openObject :: .string name :: .colon :: tokens value (fieldTokens fields rest)
  | .string text, rest => .string text :: rest
  | value, rest => .word value :: rest

/-- The tokens of the remaining items of an array and of its end. -/
def itemTokens : List Json → List Token → List Token
  | [], rest => .closeArray :: rest
  | item :: items, rest => .comma :: tokens item (itemTokens items rest)

/-- The tokens of the remaining fields of an object and of its end. -/
def fieldTokens : List (Option String × Json) → List Token → List Token
  | [], rest => .closeObject :: rest
  | (name, value) :: fields, rest =>
    .comma :: .string name :: .colon :: tokens value (fieldTokens fields rest)

end

def render (value : Json) : String := String.ofList ((tokens value []).flatMap Token.chars)

end SyntaxOutline.Json
