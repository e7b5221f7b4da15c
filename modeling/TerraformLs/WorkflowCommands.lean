import TerraformLs.CyclicLocals
import TerraformLs.TrailingComments
import TerraformLs.VersionRanges

/-! The linter's output as workflow commands, one for each diagnostic, and how a runner reads
them. The escapes keep paths, codes and messages apart from the marks around them. -/
namespace TerraformLs
namespace WorkflowCommands

open GitRefs VersionConstraint

inductive NumberOrString
  | number (n : ℤ)
  | string (s : Rope)

/-- A diagnostic of the linter with the path of its file. -/
structure Entry where
  path : Rope
  range : Range
  severity : Option DiagnosticSeverity
  code : Option NumberOrString
  message : Rope

def codeOf (d : Entry) : Rope :=
  match d.code with
  | some (.string s) => s
  | some (.number n) => (toString n).toList
  | none => []

def replaceChar (c : Char) (text s : Rope) : Rope := s.flatMap fun d => if d = c then text else [d]

/-- The percent sign first, so that the others' own signs stay. -/
def escapeWorkflowData (s : Rope) : Rope :=
  replaceChar '\n' "%0A".toList (replaceChar '\r' "%0D".toList (replaceChar '%' "%25".toList s))

def escapeWorkflowProperty (s : Rope) : Rope :=
  replaceChar ',' "%2C".toList (replaceChar ':' "%3A".toList (escapeWorkflowData s))

def githubLevel (d : Entry) : Rope :=
  match d.severity with
  | some .error | none => "error".toList
  | some .warning => "warning".toList
  | _ => "notice".toList

def githubLine (d : Entry) : Rope :=
  "::".toList ++ githubLevel d ++ " file=".toList ++ escapeWorkflowProperty d.path ++
    ",line=".toList ++ written (d.range.start.line + 1) ++
    ",endLine=".toList ++ written (d.range.end.line + 1) ++
    ",col=".toList ++ written (d.range.start.character + 1) ++
    ",endColumn=".toList ++ written (d.range.end.character + 1) ++
    ",title=".toList ++ escapeWorkflowProperty (codeOf d) ++ "::".toList ++
    escapeWorkflowData d.message ++ ['\n']

def renderGithub (entries : List Entry) : Rope := entries.flatMap githubLine

/-! ### The reader -/

/-- What an escape stands for; two of them only stand in properties. -/
def escaped (property : Bool) : Char → Char → Option Char
  | '2', '5' => some '%'
  | '0', 'D' => some '\r'
  | '0', 'A' => some '\n'
  | '3', 'A' => if property then some ':' else none
  | '2', 'C' => if property then some ',' else none
  | _, _ => none

def unescape (property : Bool) : Rope → Rope
  | [] => []
  | [c] => [c]
  | [c,d] => [c,d]
  | c :: a :: b :: s =>
    match if c = '%' then escaped property a b else none with
    | some d => d :: unescape property s
    | none => c :: unescape property (a :: b :: s)

structure Command where
  level : Rope
  properties : List (Rope × Rope)
  message : Rope
  deriving DecidableEq

def readProperty (s : Rope) : Rope × Rope :=
  (s.takeWhile (· ≠ '='),unescape true (s.dropWhile (· ≠ '=')).tail)

/-- A command stands between the marks at the start of its line and the next ones. -/
def readCommand (line : Rope) : Option Command := do
  let rest ← stripPrefix "::".toList line
  let stop ← find "::".toList rest
  let head := rest.take stop
  let properties := (head.dropWhile (· ≠ ' ')).tail
  return ⟨head.takeWhile (· ≠ ' '),(properties.splitOn ',').map readProperty,
    unescape false (rest.drop (stop + 2))⟩

def Command.property (c : Command) (name : String) : Option Rope :=
  (c.properties.find? fun p => p.1 = name.toList).map Prod.snd

def Command.number (c : Command) (name : String) : Option ℕ := do
  let digits ← c.property name
  if SemVer.isNumeric digits then some (SemVer.digitsValue digits) else none

/-- What a runner shows at a place of a file; lines and columns are counted from one. -/
structure Annotation where
  level : Rope
  file : Rope
  range : Range
  title : Rope
  message : Rope
  deriving DecidableEq

def Command.annotation (c : Command) : Option Annotation := do
  let file ← c.property "file"
  let line ← c.number "line"
  let endLine ← c.number "endLine"
  let col ← c.number "col"
  let endColumn ← c.number "endColumn"
  let title ← c.property "title"
  return ⟨c.level,file,⟨⟨line,col⟩,⟨endLine,endColumn⟩⟩,title,c.message⟩

/-- What is behind the last line feed is no line. -/
def readAnnotations (text : Rope) : List (Option Annotation) :=
  (text.splitOn '\n').dropLast.map fun line => readCommand line >>= Command.annotation

/-! ### Escapes -/

section escapes

variable {s u : Rope} {c d : Char} {property : Bool}

/-- The escape of a character, in a property or in a message. -/
def escapeChar (property : Bool) (c : Char) : Rope :=
  if c = '%' then "%25".toList else if c = '\r' then "%0D".toList else if c = '\n' then "%0A".toList
  else if property && c = ':' then "%3A".toList else if property && c = ',' then "%2C".toList else [c]

theorem escapeWorkflowData_eq (s : Rope) : escapeWorkflowData s = s.flatMap (escapeChar false) := by
  simp only [escapeWorkflowData,replaceChar,List.flatMap_assoc]
  congr 1
  funext c
  rw [escapeChar]
  split_ifs with hpercent hreturn hfeed <;> simp_all

theorem escapeWorkflowProperty_eq (s : Rope) :
    escapeWorkflowProperty s = s.flatMap (escapeChar true) := by
  rw [escapeWorkflowProperty,escapeWorkflowData_eq]
  simp only [replaceChar,List.flatMap_assoc]
  congr 1
  funext c
  rw [escapeChar,escapeChar]
  split_ifs <;> simp_all

theorem unescape_cons (hc : c ≠ '%') (s : Rope) :
    unescape property (c :: s) = c :: unescape property s := by
  match s with
  | [] => rfl
  | [_] => rfl
  | _ :: _ :: _ => rw [unescape,if_neg hc]

theorem unescape_escapeChar (c : Char) (s : Rope) :
    unescape property (escapeChar property c ++ s) = c :: unescape property s := by
  rw [escapeChar]
  split_ifs with hpercent hreturn hfeed hcolon hcomma
  · rw [hpercent]
    rfl
  · rw [hreturn]
    rfl
  · rw [hfeed]
    rfl
  · obtain ⟨rfl,hc⟩ : property = true ∧ c = ':' := by simpa using hcolon
    rw [hc]
    rfl
  · obtain ⟨rfl,hc⟩ : property = true ∧ c = ',' := by simpa using hcomma
    rw [hc]
    rfl
  · exact unescape_cons hpercent s

theorem unescape_flatMap (s : Rope) : unescape property (s.flatMap (escapeChar property)) = s := by
  induction s with
  | nil => rfl
  | cons c s ih => rw [List.flatMap_cons,unescape_escapeChar,ih]

/-- The marks of a command do not come out of an escape. -/
theorem not_mem_escape (hd : d = '\n' ∨ property ∧ (d = ':' ∨ d = ',')) (s : Rope) :
    d ∉ s.flatMap (escapeChar property) := by
  rw [List.mem_flatMap]
  rintro ⟨c,-,hc⟩
  rw [escapeChar] at hc
  split_ifs at hc with hpercent hreturn hfeed hcolon hcomma
  · rcases hd with rfl | ⟨-,rfl | rfl⟩ <;> exact absurd hc (by decide)
  · rcases hd with rfl | ⟨-,rfl | rfl⟩ <;> exact absurd hc (by decide)
  · rcases hd with rfl | ⟨-,rfl | rfl⟩ <;> exact absurd hc (by decide)
  · rcases hd with rfl | ⟨-,rfl | rfl⟩ <;> exact absurd hc (by decide)
  · rcases hd with rfl | ⟨-,rfl | rfl⟩ <;> exact absurd hc (by decide)
  · obtain rfl := List.mem_singleton.mp hc
    rcases hd with rfl | ⟨hproperty,rfl | rfl⟩
    · exact hfeed rfl
    · exact hcolon (by simp [hproperty])
    · exact hcomma (by simp [hproperty])

theorem not_mem_written {n : ℕ} (hd : d.isDigit = false) : d ∉ written n := fun h => by
  rw [Nat.isDigit_of_mem_toDigits (by decide) (by decide) h] at hd
  cases hd

theorem unescape_written (n : ℕ) : unescape property (written n) = written n := by
  have hpercent : '%' ∉ written n := not_mem_written rfl
  revert hpercent
  generalize written n = s
  intro hpercent
  induction s with
  | nil => rfl
  | cons c s ih =>
    obtain ⟨hc,hs⟩ := List.ne_and_not_mem_of_not_mem_cons hpercent
    rw [unescape_cons hc.symm,ih hs]

end escapes

/-! ### What is read back -/

def annotationOf (d : Entry) : Annotation :=
  ⟨githubLevel d,d.path,⟨⟨d.range.start.line + 1,d.range.start.character + 1⟩,
    ⟨d.range.end.line + 1,d.range.end.character + 1⟩⟩,codeOf d,d.message⟩

section lines

variable {d : Entry} {name value : Rope} {n : ℕ}

/-- The properties of a command as they are written. -/
def fields (d : Entry) : List Rope :=
  ["file=".toList ++ escapeWorkflowProperty d.path,
    "line=".toList ++ written (d.range.start.line + 1),
    "endLine=".toList ++ written (d.range.end.line + 1),
    "col=".toList ++ written (d.range.start.character + 1),
    "endColumn=".toList ++ written (d.range.end.character + 1),
    "title=".toList ++ escapeWorkflowProperty (codeOf d)]

def headOf (d : Entry) : Rope := githubLevel d ++ ' ' :: [','].intercalate (fields d)

theorem line_pieces (m a b c d e f g : Rope) :
    "::".toList ++ m ++ " file=".toList ++ a ++ ",line=".toList ++ b ++ ",endLine=".toList ++ c ++
      ",col=".toList ++ d ++ ",endColumn=".toList ++ e ++ ",title=".toList ++ f ++
      "::".toList ++ g ++ ['\n'] =
    "::".toList ++ (m ++ ' ' :: [','].intercalate ["file=".toList ++ a,"line=".toList ++ b,
      "endLine=".toList ++ c,"col=".toList ++ d,"endColumn=".toList ++ e,"title=".toList ++ f] ++
        (':' :: ':' :: g)) ++ ['\n'] := by
  have hline : ",line=".toList = [','] ++ "line=".toList := rfl
  have hendLine : ",endLine=".toList = [','] ++ "endLine=".toList := rfl
  have hcol : ",col=".toList = [','] ++ "col=".toList := rfl
  have hendColumn : ",endColumn=".toList = [','] ++ "endColumn=".toList := rfl
  have htitle : ",title=".toList = [','] ++ "title=".toList := rfl
  have hfile : " file=".toList = [' '] ++ "file=".toList := rfl
  have hmarks : "::".toList = [':',':'] := rfl
  simp only [hline,hendLine,hcol,hendColumn,htitle,hfile,hmarks,List.intercalate_cons_cons,
    List.intercalate_singleton,List.append_assoc,List.cons_append,List.nil_append]

theorem githubLine_eq (d : Entry) : githubLine d =
    "::".toList ++ (headOf d ++ (':' :: ':' :: escapeWorkflowData d.message)) ++ ['\n'] :=
  line_pieces _ _ _ _ _ _ _ _

theorem readProperty_eq (hname : '=' ∉ name) (value : Rope) :
    readProperty (name ++ '=' :: value) = (name,unescape true value) := by
  have htake : (name ++ '=' :: value).takeWhile (· ≠ '=') = name := by
    rw [List.takeWhile_append_of_pos fun c hc => decide_eq_true (p:=c ≠ '=') fun h => hname (h ▸ hc)]
    simp
  have hdrop : (name ++ '=' :: value).dropWhile (· ≠ '=') = '=' :: value := by
    rw [List.dropWhile_append_of_pos fun c hc => decide_eq_true (p:=c ≠ '=') fun h => hname (h ▸ hc)]
    rfl
  rw [readProperty,htake,hdrop,List.tail_cons]

/-- Nothing that ends a property, a command's head or a line. -/
def Unmarked (s : Rope) : Prop := ',' ∉ s ∧ ':' ∉ s ∧ '\n' ∉ s

theorem Unmarked.append {s u : Rope} (hs : Unmarked s) (hu : Unmarked u) : Unmarked (s ++ u) := by
  simp only [Unmarked,List.mem_append,not_or]
  exact ⟨⟨hs.1,hu.1⟩,⟨hs.2.1,hu.2.1⟩,hs.2.2,hu.2.2⟩

theorem unmarked_written (n : ℕ) : Unmarked (written n) :=
  ⟨not_mem_written rfl,not_mem_written rfl,not_mem_written rfl⟩

theorem unmarked_escape (s : Rope) : Unmarked (escapeWorkflowProperty s) := by
  rw [escapeWorkflowProperty_eq]
  exact ⟨not_mem_escape (.inr ⟨rfl,.inr rfl⟩) s,not_mem_escape (.inr ⟨rfl,.inl rfl⟩) s,
    not_mem_escape (.inl rfl) s⟩

theorem unmarked_field {p : Rope} (hp : p ∈ fields d) : Unmarked p := by
  simp only [fields,List.mem_cons,List.not_mem_nil,or_false] at hp
  rcases hp with rfl | rfl | rfl | rfl | rfl | rfl
  · exact .append (by unfold Unmarked; decide) (unmarked_escape _)
  · exact .append (by unfold Unmarked; decide) (unmarked_written _)
  · exact .append (by unfold Unmarked; decide) (unmarked_written _)
  · exact .append (by unfold Unmarked; decide) (unmarked_written _)
  · exact .append (by unfold Unmarked; decide) (unmarked_written _)
  · exact .append (by unfold Unmarked; decide) (unmarked_escape _)

theorem level_letters (d : Entry) : (githubLevel d).all Char.isLower = true := by
  rw [githubLevel]
  split <;> rfl

theorem not_mem_headOf {c : Char} (hlevel : c.isLower = false) (hmark : c ≠ ' ' ∧ c ≠ ',')
    (hc : ∀ p ∈ fields d, c ∉ p) : c ∉ headOf d := by
  rw [headOf,List.mem_append,List.mem_cons]
  rintro (h | h | h)
  · rw [List.all_eq_true.mp (level_letters d) c h] at hlevel
    cases hlevel
  · exact hmark.1 h
  · rcases SemVer.mem_intercalate h with h | ⟨p,hp,h⟩
    · exact hmark.2 h
    · exact hc p hp h

theorem readCommand_eq (d : Entry) :
    readCommand ("::".toList ++ (headOf d ++ (':' :: ':' :: escapeWorkflowData d.message))) =
      some ⟨githubLevel d,(fields d).map readProperty,d.message⟩ := by
  have hstrip : ∀ s : Rope, stripPrefix "::".toList ("::".toList ++ s) = some s := fun s => by
    rw [stripPrefix,if_pos (List.isPrefixOf_iff_prefix.mpr ⟨s,rfl⟩),List.drop_left]
  have hfind : find "::".toList (headOf d ++ (':' :: ':' :: escapeWorkflowData d.message)) =
      some (headOf d).length := by
    refine TrailingComments.find_at (by decide) (fun b c hb hsplit hpre => ?_) ⟨_,rfl⟩
    obtain ⟨x,b,rfl⟩ := List.exists_cons_of_ne_nil hb
    obtain ⟨rfl,-⟩ := List.cons_prefix_cons.mp hpre
    have hcolon : ':' ∉ headOf d := not_mem_headOf rfl (by decide) fun p hp => (unmarked_field hp).2.1
    exact hcolon (hsplit ▸ List.mem_append_right c List.mem_cons_self)
  have hkept : ∀ c ∈ githubLevel d, decide (c ≠ ' ') = true := fun c hc => by
    refine decide_eq_true (p:=c ≠ ' ') fun h => ?_
    have hlower := List.all_eq_true.mp (level_letters d) c hc
    rw [h] at hlower
    cases hlower
  have hhead : (headOf d).takeWhile (· ≠ ' ') = githubLevel d := by
    rw [headOf,List.takeWhile_append_of_pos hkept]
    simp
  have hproperties : ((headOf d).dropWhile (· ≠ ' ')).tail = [','].intercalate (fields d) := by
    rw [headOf,List.dropWhile_append_of_pos hkept]
    simp
  have hsplit : ([','].intercalate (fields d)).splitOn ',' = fields d :=
    List.splitOn_intercalate ',' (fun p hp => (unmarked_field hp).1) (by simp [fields])
  have hmessage : (headOf d ++ (':' :: ':' :: escapeWorkflowData d.message)).drop ((headOf d).length + 2) =
      escapeWorkflowData d.message := by
    rw [List.drop_append]
    simp
  rw [readCommand,hstrip]
  simp only [Option.bind_eq_bind,Option.bind_some]
  rw [hfind]
  simp only [Option.bind_some]
  rw [List.take_left,hhead,hproperties,hsplit,hmessage,escapeWorkflowData_eq,unescape_flatMap]
  rfl

theorem fields_read (d : Entry) : (fields d).map readProperty =
    [("file".toList,d.path),("line".toList,written (d.range.start.line + 1)),
      ("endLine".toList,written (d.range.end.line + 1)),
      ("col".toList,written (d.range.start.character + 1)),
      ("endColumn".toList,written (d.range.end.character + 1)),("title".toList,codeOf d)] := by
  have hread : ∀ name s : Rope, '=' ∉ name →
      readProperty (name ++ ['='] ++ escapeWorkflowProperty s) = (name,s) := fun name s hname => by
    rw [List.append_assoc,List.singleton_append,readProperty_eq hname,escapeWorkflowProperty_eq,
      unescape_flatMap]
  have hnumber : ∀ (name : Rope) (n : ℕ), '=' ∉ name →
      readProperty (name ++ ['='] ++ written n) = (name,written n) := fun name n hname => by
    rw [List.append_assoc,List.singleton_append,readProperty_eq hname,unescape_written]
  have hfile := hread "file".toList d.path (by decide)
  have hline := hnumber "line".toList (d.range.start.line + 1) (by decide)
  have hendLine := hnumber "endLine".toList (d.range.end.line + 1) (by decide)
  have hcol := hnumber "col".toList (d.range.start.character + 1) (by decide)
  have hendColumn := hnumber "endColumn".toList (d.range.end.character + 1) (by decide)
  have htitle := hread "title".toList (codeOf d) (by decide)
  rw [← hfile,← hline,← hendLine,← hcol,← hendColumn,← htitle]
  rfl

theorem annotation_read (d : Entry) :
    Command.annotation ⟨githubLevel d,(fields d).map readProperty,d.message⟩ =
      some (annotationOf d) := by
  have hnumber : ∀ n, (if SemVer.isNumeric (written n) then some (SemVer.digitsValue (written n))
      else none) = some n := fun n => by rw [if_pos (isNumeric_written n),digitsValue_written]
  rw [fields_read]
  generalize hc : Command.mk _ _ _ = c
  have hfile : c.property "file" = some d.path := hc ▸ rfl
  have htitle : c.property "title" = some (codeOf d) := hc ▸ rfl
  have hline : c.number "line" = some (d.range.start.line + 1) := hc ▸ hnumber _
  have hendLine : c.number "endLine" = some (d.range.end.line + 1) := hc ▸ hnumber _
  have hcol : c.number "col" = some (d.range.start.character + 1) := hc ▸ hnumber _
  have hendColumn : c.number "endColumn" = some (d.range.end.character + 1) := hc ▸ hnumber _
  rw [Command.annotation,hfile,htitle,hline,hendLine,hcol,hendColumn,← hc]
  rfl

end lines

/-- The lines of a text, each of them ended by a line feed. -/
theorem splitOn_lines {lines : List Rope} (h : ∀ l ∈ lines, '\n' ∉ l) :
    (lines.flatMap fun l => l ++ ['\n']).splitOn '\n' = lines ++ [[]] := by
  induction lines with
  | nil => rfl
  | cons l lines ih =>
    obtain ⟨hl,hlines⟩ := List.forall_mem_cons.mp h
    rw [List.flatMap_cons,List.append_assoc,List.singleton_append,
      List.splitOn_append_cons_self_of_not_mem hl,ih hlines,List.cons_append]

theorem readAnnotations_renderGithub (entries : List Entry) :
    readAnnotations (renderGithub entries) = entries.map fun d => some (annotationOf d) := by
  let line : Entry → Rope := fun d =>
    "::".toList ++ (headOf d ++ (':' :: ':' :: escapeWorkflowData d.message))
  have hrender : renderGithub entries = (entries.map line).flatMap fun l => l ++ ['\n'] := by
    rw [renderGithub,List.flatMap_map]
    congr 1
    funext d
    exact githubLine_eq d
  have hlines : ∀ l ∈ entries.map line, '\n' ∉ l := by
    intro l hl
    obtain ⟨d,-,rfl⟩ := List.mem_map.mp hl
    have hhead : '\n' ∉ headOf d := not_mem_headOf rfl (by decide) fun p hp => (unmarked_field hp).2.2
    have hmessage : '\n' ∉ escapeWorkflowData d.message := by
      rw [escapeWorkflowData_eq]
      exact not_mem_escape (.inl rfl) _
    simp only [line,List.mem_append,List.mem_cons,not_or]
    exact ⟨by decide,hhead,by decide,by decide,hmessage⟩
  rw [readAnnotations,hrender,splitOn_lines hlines,List.dropLast_concat,List.map_map]
  refine List.map_congr_left fun d _ => ?_
  have hread : readCommand (line d) = _ := readCommand_eq d
  rw [Function.comp_apply,hread]
  exact annotation_read d

end WorkflowCommands
end TerraformLs
