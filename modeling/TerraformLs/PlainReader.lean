import TerraformLs.Hcl
import TerraformLs.Rope

/-! A reader for plain configuration texts: blocks with quoted labels, attributes,
comment lines, and values built from literals, quoted templates, arrays and objects.
How the expressions in templates are read is left to the parser of the language. -/
namespace TerraformLs
namespace PlainReader

/-- A piece of a template: a character, or what stands between `${` or `%{` and the
brace that closes it. -/
inductive Piece
  | char (c : Char)
  | sequence (marker : Char) (text : Rope)
  deriving DecidableEq

/-- A structure of a body, without its place in a text. -/
inductive PlainStructure
  | attribute (key : String) (value : Expression)
  | block (ident : String) (labels : List BlockLabel) (body : List PlainStructure)

abbrev PlainBody := List PlainStructure

/-- The characters with a meaning in the texts that are read. -/
def marks : List Char :=
  [' ','\n','\r','\t','=','{','}','[',']',',','"','\\','/','$','%']

/-- The parts of the language that are not looked into. -/
structure Lexicon where
  isIdentChar : Char → Bool
  /-- Split the text after `${` or `%{` at the brace that closes it. -/
  close : Rope → Option (Rope × Rope)
  /-- The expression that a quoted template is parsed to. -/
  template : List Piece → Option Expression
  number : Rope → Option Expression
  identChar_alpha : ∀ c : Char, c.isAlpha = true → isIdentChar c = true
  identChar_marks : ∀ c ∈ marks, isIdentChar c = false
  close_split : ∀ text inside after, close text = some (inside,after) → text = inside ++ '}' :: after
  /-- What comes after the brace is not looked at. -/
  close_local : ∀ inside after after', close (inside ++ '}' :: after) = some (inside,after) →
    close (inside ++ '}' :: after') = some (inside,after')
  template_chars : ∀ text : Rope, template (text.map .char) = some (.string (String.ofList text))

section fuel

variable {α β : Type}

/-- With enough fuel the result is `a`. -/
def Settles (f : ℕ → Option α) (a : α) : Prop := ∃ n, ∀ m ≥ n, f m = some a

theorem settles_const {f : ℕ → Option α} {a : α} (h : ∀ m, f m = some a) : Settles f a :=
  ⟨0,fun m _ => h m⟩

theorem settles_unique {f : ℕ → Option α} {a b : α} (ha : Settles f a) (hb : Settles f b) :
    a = b := by
  obtain ⟨n,hn⟩ := ha
  obtain ⟨k,hk⟩ := hb
  have h := hn (max n k) (by omega)
  rw [hk (max n k) (by omega)] at h
  exact (Option.some.inj h).symm

/-- A step that takes one unit of fuel. -/
theorem settles_succ {f g : ℕ → Option α} {a : α} (h : ∀ m, f (m+1) = g m) (hg : Settles g a) :
    Settles f a := by
  obtain ⟨n,hn⟩ := hg
  refine ⟨n+1,fun m hm => ?_⟩
  obtain ⟨k,rfl⟩ := Nat.exists_eq_add_of_le' (Nat.le_of_add_left_le hm)
  rw [h]
  exact hn k (by omega)

theorem settles_bind {f : ℕ → Option α} {g : ℕ → α → Option β} {a : α} {b : β}
    (hf : Settles f a) (hg : Settles (fun m => g m a) b) :
    Settles (fun m => (f m).bind (g m)) b := by
  obtain ⟨n,hn⟩ := hf
  obtain ⟨k,hk⟩ := hg
  refine ⟨max n k,fun m hm => ?_⟩
  show (f m).bind (g m) = some b
  rw [hn m (by omega),Option.bind_some]
  exact hk m (by omega)

theorem settles_map {f : ℕ → Option α} {a : α} (g : α → β) (hf : Settles f a) :
    Settles (fun m => (f m).map g) (g a) := by
  obtain ⟨n,hn⟩ := hf
  refine ⟨n,fun m hm => ?_⟩
  show (f m).map g = some (g a)
  rw [hn m hm,Option.map_some]

end fuel

section templates

/-- What a character of a template starts. -/
inductive Lead
  | opens (rest : Rope)
  | escaped (rest : Rope)
  | plain
  deriving DecidableEq

def isMarker (c : Char) : Bool := c = '$' || c = '%'

/-- A doubled marker before a brace stands for the marker itself. -/
def lead (c : Char) (rest : Rope) : Lead :=
  if isMarker c then
    if rest.head? = some '{' then .opens (rest.drop 1)
    else if rest.take 2 = [c,'{'] then .escaped (rest.drop 2)
    else .plain
  else .plain

variable (L : Lexicon)

/-- A template that is not quoted. -/
def readBare : ℕ → Rope → Option (List Piece)
  | 0, _ => none
  | _+1, [] => some []
  | fuel+1, c::rest =>
    match lead c rest with
    | .opens rest => (L.close rest).bind fun (inside,after) =>
      (readBare fuel after).map fun pieces => .sequence c inside :: pieces
    | .escaped rest => (readBare fuel rest).map fun pieces => .char c :: .char '{' :: pieces
    | .plain => (readBare fuel rest).map fun pieces => .char c :: pieces

def unescape : Char → Option Char
  | '\\' => some '\\'
  | '"' => some '"'
  | 'n' => some '\n'
  | 'r' => some '\r'
  | 't' => some '\t'
  | _ => none

/-- A template from after the opening quote, up to the closing one. -/
def readQuoted : ℕ → Rope → Option (List Piece × Rope)
  | 0, _ => none
  | _+1, [] => none
  | fuel+1, c::rest =>
    if c = '"' then some ([],rest)
    else if c = '\\' then
      match rest with
      | [] => none
      | d::rest => (unescape d).bind fun e =>
        (readQuoted fuel rest).map fun (pieces,after) => (.char e :: pieces,after)
    else if c = '\n' then none
    else
      match lead c rest with
      | .opens rest => (L.close rest).bind fun (inside,after) =>
        (readQuoted fuel after).map fun (pieces,after) => (.sequence c inside :: pieces,after)
      | .escaped rest => (readQuoted fuel rest).map fun (pieces,after) =>
        (.char c :: .char '{' :: pieces,after)
      | .plain => (readQuoted fuel rest).map fun (pieces,after) => (.char c :: pieces,after)

end templates

section values

variable (L : Lexicon)

def skipBlank (text : Rope) : Rope := text.dropWhile fun c => c = ' '

def skipSpace (text : Rope) : Rope := text.dropWhile fun c => c = ' ' || c = '\n'

/-- What follows the character, when it comes next. -/
def expect (c : Char) (text : Rope) : Option Rope :=
  if text.head? = some c then some text.tail else none

def isNumberChar (c : Char) : Bool := c.isDigit || c ∈ ['-','+','.','e','E']

def readKeyword : Rope → Option (Expression × Rope)
  | 'n' :: 'u' :: 'l' :: 'l' :: rest => some (.null,rest)
  | 't' :: 'r' :: 'u' :: 'e' :: rest => some (.bool true,rest)
  | 'f' :: 'a' :: 'l' :: 's' :: 'e' :: rest => some (.bool false,rest)
  | _ => none

mutual

def readValue : ℕ → Rope → Option (Expression × Rope)
  | 0, _ => none
  | _+1, [] => none
  | fuel+1, c::rest =>
    if c = '"' then (readQuoted L fuel rest).bind fun (pieces,after) =>
      (L.template pieces).map fun e => (e,after)
    else if c = '[' then (readItems fuel rest).map fun (es,after) => (.array es,after)
    else if c = '{' then (readFields fuel (skipSpace rest)).map fun (fields,after) =>
      (.object fields,after)
    else if isNumberChar c then
      (L.number ((c :: rest).takeWhile isNumberChar)).map fun e =>
        (e,(c :: rest).dropWhile isNumberChar)
    else readKeyword (c :: rest)

/-- The items of an array, and its closing bracket. -/
def readItems : ℕ → Rope → Option (List Expression × Rope)
  | 0, _ => none
  | fuel+1, text =>
    if text.head? = some ']' then some ([],text.tail)
    else (readValue fuel text).bind fun (e,after) =>
      if after.head? = some ',' then
        (readItems fuel (skipBlank after.tail)).map fun (es,after) => (e :: es,after)
      else (expect ']' after).map fun after => ([e],after)

/-- The fields of an object, one on each line, and its closing brace. -/
def readFields : ℕ → Rope → Option (List (ObjectKey × Expression) × Rope)
  | 0, _ => none
  | fuel+1, text =>
    if text.head? = some '}' then some ([],text.tail)
    else (expect '"' text).bind fun text =>
      (readQuoted L fuel text).bind fun (pieces,after) =>
        (L.template pieces).bind fun key =>
          (expect '=' (skipBlank after)).bind fun after =>
            (readValue fuel (skipBlank after)).bind fun (e,after) =>
              (expect '\n' after).bind fun after =>
                (readFields fuel (skipSpace after)).map fun (fields,after) =>
                  ((.expression key,e) :: fields,after)

end

end values

section bodies

variable (L : Lexicon)

/-- The labels of a block, and its opening brace. -/
def readLabels : ℕ → Rope → Option (List BlockLabel × Rope)
  | 0, _ => none
  | fuel+1, text =>
    if text.head? = some '{' then some ([],text.tail)
    else (expect '"' text).bind fun text =>
      (expect '"' (text.dropWhile L.isIdentChar)).bind fun after =>
        (readLabels fuel (skipBlank after)).map fun (labels,after) =>
          (.string (String.ofList (text.takeWhile L.isIdentChar)) :: labels,after)

/-- The structures up to the end of the text, or up to the brace that ends the block. -/
def readBody : ℕ → Rope → Option (PlainBody × Rope)
  | 0, _ => none
  | fuel+1, text =>
    if text = [] ∨ text.head? = some '}' then some ([],text)
    else if text.take 2 = ['/','/'] then
      readBody fuel (skipSpace (text.dropWhile fun c => c ≠ '\n'))
    else
      let key := text.takeWhile L.isIdentChar
      let after := skipBlank (text.dropWhile L.isIdentChar)
      if key = [] then none
      else if after.head? = some '=' then
        (readValue L fuel (skipBlank after.tail)).bind fun (e,after) =>
          (expect '\n' after).bind fun after =>
            (readBody fuel (skipSpace after)).map fun (body,after) =>
              (.attribute (String.ofList key) e :: body,after)
      else (readLabels L fuel after).bind fun (labels,after) =>
        (readBody fuel (skipSpace after)).bind fun (inner,after) =>
          (expect '}' after).bind fun after =>
            (expect '\n' after).bind fun after =>
              (readBody fuel (skipSpace after)).map fun (body,after) =>
                (.block (String.ofList key) labels inner :: body,after)

section rules

variable {L : Lexicon}

@[simp] theorem expect_self (c : Char) (rest : Rope) : expect c (c :: rest) = some rest := by
  simp [expect]

theorem settles_string {text after : Rope} {pieces : List Piece} {e : Expression}
    (htext : Settles (fun m => readQuoted L m text) (pieces,after))
    (he : L.template pieces = some e) :
    Settles (fun m => readValue L m ('"' :: text)) (e,after) := by
  have hstep : ∀ m, readValue L (m+1) ('"' :: text) = (readQuoted L m text).bind
      fun r => (L.template r.1).map fun e => (e,r.2) := fun m => rfl
  refine settles_succ hstep (settles_bind htext (settles_const fun m => ?_))
  show (L.template pieces).map _ = _
  rw [he]
  rfl

theorem settles_array {text after : Rope} {es : List Expression}
    (hitems : Settles (fun m => readItems L m text) (es,after)) :
    Settles (fun m => readValue L m ('[' :: text)) (.array es,after) := by
  have hstep : ∀ m, readValue L (m+1) ('[' :: text) = (readItems L m text).map
      fun r => (.array r.1,r.2) := fun m => rfl
  exact settles_succ hstep (settles_map _ hitems)

theorem settles_object {text after : Rope} {fields : List (ObjectKey × Expression)}
    (hfields : Settles (fun m => readFields L m (skipSpace text)) (fields,after)) :
    Settles (fun m => readValue L m ('{' :: text)) (.object fields,after) := by
  have hstep : ∀ m, readValue L (m+1) ('{' :: text) = (readFields L m (skipSpace text)).map
      fun r => (.object r.1,r.2) := fun m => rfl
  exact settles_succ hstep (settles_map _ hfields)

theorem settles_items_nil (after : Rope) :
    Settles (fun m => readItems L m (']' :: after)) ([],after) :=
  settles_succ (fun _ => rfl) (settles_const fun _ => rfl)

theorem readItems_item {text : Rope} (htext : text.head? ≠ some ']') (m : ℕ) :
    readItems L (m+1) text = (readValue L m text).bind fun r =>
      if r.2.head? = some ',' then
        (readItems L m (skipBlank r.2.tail)).map fun s => (r.1 :: s.1,s.2)
      else (expect ']' r.2).map fun after => ([r.1],after) := by
  rw [readItems,if_neg htext]

theorem settles_items_last {text after : Rope} {e : Expression} (htext : text.head? ≠ some ']')
    (hvalue : Settles (fun m => readValue L m text) (e,']' :: after)) :
    Settles (fun m => readItems L m text) ([e],after) :=
  settles_succ (readItems_item htext) (settles_bind hvalue (settles_const fun _ => rfl))

theorem settles_items_cons {text after rest : Rope} {e : Expression} {es : List Expression}
    (htext : text.head? ≠ some ']')
    (hvalue : Settles (fun m => readValue L m text) (e,',' :: after))
    (hitems : Settles (fun m => readItems L m (skipBlank after)) (es,rest)) :
    Settles (fun m => readItems L m text) (e :: es,rest) := by
  refine settles_succ (readItems_item htext) (settles_bind hvalue ?_)
  exact settles_map (fun s : List Expression × Rope => (e :: s.1,s.2)) hitems

theorem settles_fields_nil (after : Rope) :
    Settles (fun m => readFields L m ('}' :: after)) ([],after) :=
  settles_succ (fun _ => rfl) (settles_const fun _ => rfl)

theorem settles_fields_cons {text after value next rest : Rope} {pieces : List Piece}
    {key e : Expression} {fields : List (ObjectKey × Expression)}
    (htext : Settles (fun m => readQuoted L m text) (pieces,after))
    (hkey : L.template pieces = some key) (hequals : expect '=' (skipBlank after) = some value)
    (hvalue : Settles (fun m => readValue L m (skipBlank value)) (e,'\n' :: next))
    (hfields : Settles (fun m => readFields L m (skipSpace next)) (fields,rest)) :
    Settles (fun m => readFields L m ('"' :: text)) ((.expression key,e) :: fields,rest) := by
  have hstep : ∀ m, readFields L (m+1) ('"' :: text) = (readQuoted L m text).bind fun r =>
      (L.template r.1).bind fun key => (expect '=' (skipBlank r.2)).bind fun value =>
        (readValue L m (skipBlank value)).bind fun s => (expect '\n' s.2).bind fun next =>
          (readFields L m (skipSpace next)).map fun t => ((.expression key,s.1) :: t.1,t.2) := by
    intro m
    rw [readFields,if_neg (by simp),expect_self]
    rfl
  refine settles_succ hstep (settles_bind htext ?_)
  refine settles_bind (settles_const fun _ => hkey) (settles_bind (settles_const fun _ => hequals) ?_)
  refine settles_bind hvalue (settles_bind (settles_const fun _ => expect_self _ _) ?_)
  exact settles_map _ hfields

theorem settles_body_end (text : Rope) (h : text = [] ∨ text.head? = some '}') :
    Settles (fun m => readBody L m text) ([],text) :=
  settles_succ (fun m => by rw [readBody,if_pos h]) (settles_const fun _ => rfl)

/-- A word of the language begins what is read next. -/
def StartsWith (L : Lexicon) (word : String) (text after : Rope) : Prop :=
  word.toList ≠ [] ∧ word.toList.all L.isIdentChar = true ∧ text = word.toList ++ after ∧
    ∀ c ∈ after.head?, L.isIdentChar c = false

theorem StartsWith.take {word : String} {text after : Rope} (h : StartsWith L word text after) :
    text.takeWhile L.isIdentChar = word.toList := by
  obtain ⟨-,hall,rfl,hafter⟩ := h
  rw [List.takeWhile_append_of_pos (List.all_eq_true.mp hall)]
  cases after with
  | nil => simp
  | cons c after => simp [hafter c rfl]

theorem StartsWith.drop {word : String} {text after : Rope} (h : StartsWith L word text after) :
    text.dropWhile L.isIdentChar = after := by
  obtain ⟨-,hall,rfl,hafter⟩ := h
  rw [List.dropWhile_append_of_pos (List.all_eq_true.mp hall)]
  cases after with
  | nil => rfl
  | cons c after => simp [hafter c rfl]

theorem StartsWith.head {word : String} {text after : Rope} (h : StartsWith L word text after) :
    ∃ c rest, text = c :: rest ∧ L.isIdentChar c = true := by
  obtain ⟨hne,hall,rfl,-⟩ := h
  obtain ⟨c,rest,hcons⟩ := List.exists_cons_of_ne_nil hne
  refine ⟨c,rest ++ after,by rw [hcons]; rfl,List.all_eq_true.mp hall c ?_⟩
  rw [hcons]
  exact List.mem_cons_self

/-- What a body that begins with a word is. -/
theorem readBody_word {word : String} {text after : Rope} (h : StartsWith L word text after)
    (m : ℕ) : readBody L (m+1) text =
      if (skipBlank after).head? = some '=' then
        (readValue L m (skipBlank (skipBlank after).tail)).bind fun r =>
          (expect '\n' r.2).bind fun next =>
            (readBody L m (skipSpace next)).map fun s => (.attribute word r.1 :: s.1,s.2)
      else (readLabels L m (skipBlank after)).bind fun r =>
        (readBody L m (skipSpace r.2)).bind fun s =>
          (expect '}' s.2).bind fun next => (expect '\n' next).bind fun next =>
            (readBody L m (skipSpace next)).map fun t => (.block word r.1 s.1 :: t.1,t.2) := by
  obtain ⟨c,rest,htext,hc⟩ := h.head
  have hmark : ∀ d ∈ marks, c ≠ d := by
    intro d hd hcd
    rw [hcd,L.identChar_marks d hd] at hc
    cases hc
  have hend : ¬(text = [] ∨ text.head? = some '}') := by
    rw [htext]
    simpa using hmark '}' (by decide)
  have hcomment : text.take 2 ≠ ['/','/'] := by
    rw [htext]
    intro htake
    exact hmark '/' (by decide) (List.cons.inj htake).1
  rw [readBody,if_neg hend,if_neg hcomment]
  simp only [h.take,h.drop,if_neg h.1,String.ofList_toList]

theorem settles_attribute {word : String} {text after value next rest : Rope} {e : Expression}
    {body : PlainBody} (h : StartsWith L word text after) (hequals : skipBlank after = '=' :: value)
    (hvalue : Settles (fun m => readValue L m (skipBlank value)) (e,'\n' :: next))
    (hbody : Settles (fun m => readBody L m (skipSpace next)) (body,rest)) :
    Settles (fun m => readBody L m text) (.attribute word e :: body,rest) := by
  have hstep : ∀ m, readBody L (m+1) text = (readValue L m (skipBlank value)).bind fun r =>
      (expect '\n' r.2).bind fun next =>
        (readBody L m (skipSpace next)).map fun s => (.attribute word r.1 :: s.1,s.2) := by
    intro m
    rw [readBody_word h,hequals,List.head?_cons,if_pos rfl]
    rfl
  refine settles_succ hstep (settles_bind hvalue ?_)
  refine settles_bind (settles_const fun _ => expect_self _ _) ?_
  exact settles_map (fun s : PlainBody × Rope => (.attribute word e :: s.1,s.2)) hbody

theorem settles_block {word : String} {text after inside next rest : Rope}
    {labels : List BlockLabel} {inner body : PlainBody} (h : StartsWith L word text after)
    (hequals : (skipBlank after).head? ≠ some '=')
    (hlabels : Settles (fun m => readLabels L m (skipBlank after)) (labels,inside))
    (hinner : Settles (fun m => readBody L m (skipSpace inside)) (inner,'}' :: '\n' :: next))
    (hbody : Settles (fun m => readBody L m (skipSpace next)) (body,rest)) :
    Settles (fun m => readBody L m text) (.block word labels inner :: body,rest) := by
  have hstep : ∀ m, readBody L (m+1) text = (readLabels L m (skipBlank after)).bind fun r =>
      (readBody L m (skipSpace r.2)).bind fun s =>
        (expect '}' s.2).bind fun next => (expect '\n' next).bind fun next =>
          (readBody L m (skipSpace next)).map fun t => (.block word r.1 s.1 :: t.1,t.2) := by
    intro m
    rw [readBody_word h,if_neg hequals]
  refine settles_succ hstep (settles_bind hlabels (settles_bind hinner ?_))
  refine settles_bind (settles_const fun _ => expect_self _ _)
    (settles_bind (settles_const fun _ => expect_self _ _) ?_)
  exact settles_map (fun t : PlainBody × Rope => (.block word labels inner :: t.1,t.2)) hbody

theorem settles_comment {text rest : Rope} {body : PlainBody}
    (hbody : Settles (fun m => readBody L m (skipSpace (text.dropWhile fun c => c ≠ '\n')))
      (body,rest)) (htext : text.take 2 = ['/','/']) :
    Settles (fun m => readBody L m text) (body,rest) := by
  have hend : ¬(text = [] ∨ text.head? = some '}') := by
    rintro (rfl | hhead)
    · cases htext
    · obtain ⟨tail,rfl⟩ := List.head?_eq_some_iff.mp hhead
      exact absurd (List.cons.inj htext).1 (by decide)
  refine settles_succ (fun m => ?_) hbody
  rw [readBody,if_neg hend,if_pos htext]

theorem settles_labels_nil (after : Rope) :
    Settles (fun m => readLabels L m ('{' :: after)) ([],after) :=
  settles_succ (fun _ => rfl) (settles_const fun _ => rfl)

theorem settles_labels_cons {label : String} {text after rest : Rope} {labels : List BlockLabel}
    (h : StartsWith L label text ('"' :: after))
    (hlabels : Settles (fun m => readLabels L m (skipBlank after)) (labels,rest)) :
    Settles (fun m => readLabels L m ('"' :: text)) (.string label :: labels,rest) := by
  have hstep : ∀ m, readLabels L (m+1) ('"' :: text) = (readLabels L m (skipBlank after)).map
      fun r => (.string label :: r.1,r.2) := by
    intro m
    rw [readLabels,if_neg (by simp),expect_self,Option.bind_some,h.take,h.drop,expect_self,
      String.ofList_toList]
    rfl
  exact settles_succ hstep (settles_map _ hlabels)

end rules

/-- A whole text. -/
def readSource (fuel : ℕ) (text : Rope) : Option PlainBody :=
  (readBody L fuel (skipSpace text)).bind fun (body,after) =>
    if after = [] then some body else none

end bodies
end PlainReader
end TerraformLs
