import TerraformLs.Hcl
import TerraformLs.Rope

/-! Configuration in JSON syntax. A file is translated to configuration text,
which is parsed in its place, so that the spans of the parsed body are offsets
in the translation and not in the file. -/
namespace TerraformLs

/-- A JSON value; the fields of an object are in the order they are walked. -/
inductive Json
  | null
  | bool (value : Bool)
  | number (digits : String)
  | string (value : String)
  | array (items : List Json)
  | object (fields : List (String × Json))

namespace Json

def asObject : Json → Option (List (String × Json))
  | object fields => some fields
  | _ => none

def isObject (v : Json) : Bool := v.asObject.isSome

end Json

abbrev Span := ℕ × ℕ

/-- A structure of a parsed body with the spans that are looked at: of an
attribute and its key, of a block, its identifier and its labels. -/
inductive SpannedStructure
  | attribute (span : Option Span) (key : String) (keySpan : Option Span) (value : Expression)
  | block (span : Option Span) (ident : String) (identSpan : Option Span)
      (labels : List (BlockLabel × Option Span)) (body : List SpannedStructure)

abbrev SpannedBody := List SpannedStructure

structure SpannedFile where
  body : Option SpannedBody
  errors : List ParseError

namespace JsonConfig

/-- Text written so far, and the error that ended the writing. -/
structure Written where
  text : Rope
  error : Option String := none
  deriving DecidableEq

def Written.andThen (a b : Written) : Written :=
  match a.error with
  | some _ => a
  | none => ⟨a.text ++ b.text,b.error⟩

def indentPush (indent : ℕ) : Rope := List.replicate (2 * indent) ' '

def escapeChar : Char → Rope
  | '\\' => ['\\','\\']
  | '"' => ['\\','"']
  | '\n' => ['\\','n']
  | '\r' => ['\\','r']
  | '\t' => ['\\','t']
  | c => [c]

def escapeString (s : String) : Rope := s.toList.flatMap escapeChar

def quoted (s : String) : Rope := '"' :: escapeString s ++ ['"']

mutual

def writeValue (indent : ℕ) : Json → Rope
  | .null => "null".toList
  | .bool b => if b then "true".toList else "false".toList
  | .number digits => digits.toList
  | .string s => quoted s
  | .array items => '[' :: writeItems indent items ++ [']']
  | .object fields => ['{','\n'] ++ writeFields indent fields ++ indentPush indent ++ ['}']

def writeItems (indent : ℕ) : List Json → Rope
  | [] => []
  | v::vs => writeValue indent v ++ (if vs.isEmpty then [] else [',',' ']) ++ writeItems indent vs

/-- The fields of an object value, with their keys quoted. -/
def writeFields (indent : ℕ) : List (String × Json) → Rope
  | [] => []
  | (key,v)::rest =>
    indentPush (indent + 1) ++ quoted key ++ " = ".toList ++ writeValue (indent + 1) v ++ ['\n'] ++
      writeFields indent rest

end

/-- An attribute; its key is written as it is. -/
def writeAttr (key : String) (val : Json) (indent : ℕ) : Rope :=
  indentPush indent ++ key.toList ++ " = ".toList ++ writeValue indent val ++ ['\n']

/-- The first line of a block. -/
def blockHeader (ident : String) (labels : List String) (indent : ℕ) : Rope :=
  indentPush indent ++ ident.toList ++ labels.flatMap (fun label => ' ' :: quoted label) ++
    [' ','{','\n']

mutual

def writeBlock (ident : String) (labels : List String) (indent : ℕ) : Json → Written
  | .object fields =>
    (Written.mk (blockHeader ident labels indent) none).andThen (writeEntries (indent + 1) fields)
      |>.andThen ⟨indentPush indent ++ ['}','\n'],none⟩
  | _ => ⟨[],some ("`" ++ ident ++ "` body must be an object")⟩

/-- An array of objects becomes nested blocks, anything else an attribute. -/
def writeEntries (indent : ℕ) : List (String × Json) → Written
  | [] => ⟨[],none⟩
  | (key,val)::rest =>
    (match val with
      | .array items =>
        if items.all Json.isObject && !items.isEmpty then writeBlocks key indent items
        else ⟨writeAttr key val indent,none⟩
      | _ => ⟨writeAttr key val indent,none⟩).andThen (writeEntries indent rest)

def writeBlocks (ident : String) (indent : ℕ) : List Json → Written
  | [] => ⟨[],none⟩
  | entry::entries => (writeBlock ident [] indent entry).andThen (writeBlocks ident indent entries)

end

/-- Write one after another, up to the first error. -/
def writeAll {α : Type} (write : α → Written) (as : List α) : Written :=
  as.foldl (fun written a => written.andThen (write a)) ⟨[],none⟩

/-- Resources and data sources nest twice, the others once. -/
def writeLabeledGroup (ident : String) (val : Json) : Written :=
  match val.asObject with
  | none => ⟨[],some ("`" ++ ident ++ "` must be an object")⟩
  | some firstLayer =>
    writeAll (fun (label,inner) =>
      if ident = "resource" ∨ ident = "data" then
        match inner.asObject with
        | none => ⟨[],some ("`" ++ ident ++ "." ++ label ++ "` must be an object of named blocks")⟩
        | some secondLayer =>
          writeAll (fun (name,body) => writeBlock ident [label,name] 0 body) secondLayer
      else writeBlock ident [label] 0 inner) firstLayer

def writeLocals (val : Json) : Written :=
  match val.asObject with
  | none => ⟨[],some "`locals` must be an object"⟩
  | some fields =>
    ⟨"locals ".toList ++ ['{','\n'] ++ fields.flatMap (fun (name,v) => writeAttr name v 1) ++
      ['}','\n'],none⟩

def writeTopLevel (key : String) (val : Json) : Written :=
  if key = "terraform" then writeBlock key [] 0 val
  else if key = "locals" then writeLocals val
  else if key ∈ ["resource","data","variable","output","module","provider","moved","check",
      "import","removed"] then writeLabeledGroup key val
  else ⟨[],some ("unsupported top-level key `" ++ key ++ "`")⟩

def topLevelKeys : List String :=
  ["terraform","resource","data","variable","output","locals","module","provider","moved","check",
    "import","removed"]

/-- The whole translation. A key that cannot be written leaves an error and what
was written of it, and the next key is taken up. -/
def translate : List (String × Json) → Rope × List ParseError
  | [] => ([],[])
  | (key,val)::rest =>
    let (text,errors) := translate rest
    if key ∈ topLevelKeys then
      let written := writeTopLevel key val
      (written.text ++ text,(written.error.map ParseError.json).toList ++ errors)
    else (text,.json ("unknown top-level key `" ++ key ++ "` in `.tf.json`") :: errors)

/-- The parser of JSON texts and that of configuration texts. -/
structure Parsers where
  fromStr : String → Except String Json
  parseSource : Rope → SpannedFile

def parseJsonSource (P : Parsers) (source : String) : SpannedFile :=
  match P.fromStr source with
  | .error e => ⟨none,[.json ("invalid JSON: " ++ e)]⟩
  | .ok value =>
    match value.asObject with
    | none => ⟨none,[.json "`.tf.json` must be a JSON object at the top level"]⟩
    | some root =>
      let (hcl,errors) := translate root
      let parsed := P.parseSource hcl
      ⟨parsed.body,errors ++ parsed.errors⟩

example : (translate [("variable",.object [("x",.object [("default",.string "a\"b")])])]).1 =
    ("variable \"x\" \x7b\n  default = \"a\\\"b\"\n\x7d\n").toList := by decide

end JsonConfig
end TerraformLs
