import TerraformLs.JsonConfig
import TerraformLs.PlainReader

/-! What a configuration in JSON syntax says: the structures, labels and values of
the document itself, without the text it is translated to; and the documents of
which the translation keeps them. -/
namespace TerraformLs
namespace JsonConfig

open PlainReader

section meaning

variable (L : Lexicon)

/-- A JSON string is a template of the language, without quotes. -/
def stringPieces (s : String) : Option (List Piece) := readBare L (s.toList.length + 1) s.toList

def stringValue (s : String) : Option Expression := (stringPieces L s).bind L.template

mutual

def jsonValue : Json → Option Expression
  | .null => some .null
  | .bool b => some (.bool b)
  | .number digits =>
    if digits.toList ≠ [] ∧ digits.toList.all isNumberChar then L.number digits.toList else none
  | .string s => stringValue L s
  | .array items => (jsonItems items).map .array
  | .object fields => (jsonFields fields).map .object

def jsonItems : List Json → Option (List Expression)
  | [] => some []
  | v::vs => (jsonValue v).bind fun e => (jsonItems vs).map fun es => e :: es

def jsonFields : List (String × Json) → Option (List (ObjectKey × Expression))
  | [] => some []
  | (key,v)::rest => (stringValue L key).bind fun k => (jsonValue v).bind fun e =>
    (jsonFields rest).map fun fields => (.expression k,e) :: fields

end

def isIdent (name : String) : Bool := name.toList ≠ [] && name.toList.all L.isIdentChar

mutual

/-- An array of objects holds nested blocks, and anything else is an attribute. -/
def jsonEntry (key : String) : Json → Option PlainBody
  | .array items =>
    if items.all Json.isObject && !items.isEmpty then jsonNested key items
    else (jsonValue L (.array items)).map fun e => [.attribute key e]
  | val => (jsonValue L val).map fun e => [.attribute key e]

/-- The structures of a block; a property named `//` is a comment. -/
def jsonEntries : List (String × Json) → Option PlainBody
  | [] => some []
  | (key,val)::rest =>
    (if key = "//" then some []
    else if isIdent L key then jsonEntry key val
    else none).bind fun body => (jsonEntries rest).map fun more => body ++ more

def jsonObject : Json → Option PlainBody
  | .object fields => jsonEntries fields
  | _ => none

def jsonNested (ident : String) : List Json → Option PlainBody
  | [] => some []
  | entry::entries => (jsonObject entry).bind fun body =>
    (jsonNested ident entries).map fun more => [.block ident [] body] ++ more

end

def concatBodies {α : Type} (f : α → Option PlainBody) : List α → Option PlainBody
  | [] => some []
  | a::as => (f a).bind fun body => (concatBodies f as).map fun more => body ++ more

/-- An array stands for several objects. -/
def asObjects : Json → List Json
  | .array items => items
  | val => [val]

def jsonAttrs (fields : List (String × Json)) : Option PlainBody :=
  concatBodies (fun (key,val) =>
    if key = "//" then some []
    else if isIdent L key then (jsonValue L val).map fun e => [.attribute key e]
    else none) fields

def jsonLocals (val : Json) : Option PlainBody :=
  concatBodies (fun entry => entry.asObject.bind fun fields =>
    (jsonAttrs L fields).map fun body => [.block "locals" [] body]) (asObjects val)

/-- The blocks under an object with a layer for each label that is still to come. -/
def jsonBlocks (ident : String) : ℕ → List String → Json → Option PlainBody
  | 0, labels, val => concatBodies (fun entry => (jsonObject L entry).map fun body =>
    [.block ident (labels.map .string) body]) (asObjects val)
  | depth+1, labels, val => concatBodies (fun entry => entry.asObject.bind fun fields =>
    concatBodies (fun (label,inner) =>
      if isIdent L label then jsonBlocks ident depth (labels ++ [label]) inner else none)
        fields) (asObjects val)

/-- How many labels the blocks of a kind have. -/
def labelCount (ident : String) : ℕ :=
  if ident ∈ ["resource","data"] then 2
  else if ident ∈ ["variable","output","module","provider","check"] then 1
  else 0

/-- The body that the document stands for. Documents that are no configuration have none. -/
def documentBody (root : List (String × Json)) : Option PlainBody :=
  concatBodies (fun (key,val) =>
    if key = "//" then some []
    else if key ∉ topLevelKeys then none
    else if key = "locals" then jsonLocals L val
    else jsonBlocks L key (labelCount key) [] val) root

end meaning

section kept

variable (L : Lexicon)

/-- No interpolation or directive of the string has a character that is escaped. -/
def KeptString (s : String) : Prop :=
  ∀ pieces ∈ stringPieces L s, ∀ marker text, .sequence marker text ∈ pieces →
    text.flatMap escapeChar = text

mutual

def KeptValue : Json → Prop
  | .string s => KeptString L s
  | .array items => KeptItems items
  | .object fields => KeptFields fields
  | _ => True

def KeptItems : List Json → Prop
  | [] => True
  | v::vs => KeptValue v ∧ KeptItems vs

def KeptFields : List (String × Json) → Prop
  | [] => True
  | (key,v)::rest => KeptString L key ∧ KeptValue v ∧ KeptFields rest

end

/-- A comment ends with its line. -/
def FitsLine (val : Json) : Prop := ∀ indent, '\n' ∉ writeValue indent val

mutual

def KeptEntry : Json → Prop
  | .array items =>
    if items.all Json.isObject && !items.isEmpty then KeptNested items
    else KeptValue L (.array items)
  | val => KeptValue L val

def KeptEntries : List (String × Json) → Prop
  | [] => True
  | (key,val)::rest => (if key = "//" then FitsLine val else KeptEntry val) ∧ KeptEntries rest

def KeptObject : Json → Prop
  | .object fields => KeptEntries fields
  | _ => True

def KeptNested : List Json → Prop
  | [] => True
  | entry::entries => KeptObject entry ∧ KeptNested entries

end

/-- Every layer of labels is an object, and so is the body of every block. -/
def KeptBlocks : ℕ → Json → Prop
  | 0, .object fields => KeptEntries L fields
  | depth+1, .object fields => ∀ field ∈ fields, KeptBlocks depth field.2
  | _, _ => False

def KeptLocals : Json → Prop
  | .object fields => ∀ field ∈ fields,
    if field.1 = "//" then FitsLine field.2 else KeptValue L field.2
  | _ => False

/-- The kinds of blocks whose labels are written as the language has them. -/
def layeredKeys : List String :=
  ["terraform","resource","data","variable","output","module","provider","check"]

def Kept (root : List (String × Json)) : Prop :=
  ∀ e ∈ root, e.1 = "//" ∨ (e.1 = "locals" ∧ KeptLocals L e.2) ∨
    (e.1 ∈ layeredKeys ∧ KeptBlocks L (labelCount e.1) e.2)

end kept

section faithful

mutual

def eraseStructure : SpannedStructure → PlainStructure
  | .attribute _ key _ value => .attribute key value
  | .block _ ident _ labels body => .block ident (labels.map Prod.fst) (eraseBody body)

def eraseBody : SpannedBody → PlainBody
  | [] => []
  | item::body => eraseStructure item :: eraseBody body

end

/-- The parser reads plain texts as they are read here. -/
def ParsesPlain (P : Parsers) (L : Lexicon) : Prop :=
  ∀ text body, Settles (fun fuel => readSource L fuel text) body →
    ∃ spanned, (P.parseSource text).body = some spanned ∧ eraseBody spanned = body

/-- The translation is parsed, to the body that the document stands for. -/
def Faithful (P : Parsers) (L : Lexicon) (source : String) (root : List (String × Json)) : Prop :=
  ∃ spanned, (parseJsonSource P source).body = some spanned ∧
    documentBody L root = some (eraseBody spanned)

end faithful

end JsonConfig
end TerraformLs
