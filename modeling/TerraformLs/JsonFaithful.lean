import TerraformLs.JsonReading

/-! The text that a kept document is translated to is read as the document says. -/
namespace TerraformLs
namespace JsonConfig

open PlainReader

section writing

variable {L : Lexicon}

/-- What was written is read as the body, whatever is read after it. -/
def ReadsAs (L : Lexicon) (w : Written) (body : PlainBody) : Prop :=
  w.error = none ∧ ∀ tail more rest, Settles (fun m => readBody L m (skipSpace tail)) (more,rest) →
    Settles (fun m => readBody L m (skipSpace (w.text ++ tail))) (body ++ more,rest)

theorem readsAs_nil : ReadsAs L ⟨[],none⟩ [] := ⟨rfl,fun _ _ _ h => h⟩

theorem ReadsAs.andThen {a b : Written} {body body' : PlainBody} (ha : ReadsAs L a body)
    (hb : ReadsAs L b body') : ReadsAs L (a.andThen b) (body ++ body') := by
  have hthen : a.andThen b = ⟨a.text ++ b.text,b.error⟩ := by
    rw [Written.andThen,ha.1]
  rw [hthen]
  refine ⟨hb.1,fun tail more rest htail => ?_⟩
  show Settles (fun m => readBody L m (skipSpace ((a.text ++ b.text) ++ tail))) _
  rw [List.append_assoc,List.append_assoc]
  exact ha.2 _ _ _ (hb.2 tail more rest htail)

theorem ident_ne_mark {c : Char} (hc : L.isIdentChar c = true) {d : Char} (hd : d ∈ marks) :
    c ≠ d := by
  intro hcd
  rw [hcd,L.identChar_marks d hd] at hc
  cases hc

theorem startsWith_ident {word : String} (h : isIdent L word = true) {c : Char} (hc : c ∈ marks)
    (after : Rope) : StartsWith L word (word.toList ++ c :: after) (c :: after) := by
  rw [isIdent,Bool.and_eq_true,decide_eq_true_eq] at h
  refine ⟨h.1,h.2,rfl,fun d hd => ?_⟩
  cases hd
  exact L.identChar_marks c hc

theorem skipSpace_word {word : String} {text after : Rope} (h : StartsWith L word text after) :
    skipSpace text = text := by
  obtain ⟨c,rest,rfl,hc⟩ := h.head
  exact skipSpace_of ⟨ident_ne_mark hc (by decide),ident_ne_mark hc (by decide)⟩ rest

theorem escape_ident {word : String} (h : isIdent L word = true) :
    escapeString word = word.toList := by
  rw [isIdent,Bool.and_eq_true] at h
  have hall := List.all_eq_true.mp h.2
  rw [escapeString]
  generalize word.toList = text at hall
  induction text with
  | nil => rfl
  | cons c text ih =>
    have hc := hall c List.mem_cons_self
    rw [List.flatMap_cons,ih fun d hd => hall d (List.mem_cons_of_mem c hd)]
    obtain ⟨hplain,-⟩ | ⟨d,hescape,hd⟩ := escapeChar_cases c
    · rw [hplain]
      rfl
    · -- the characters that are escaped are marks
      have hmark : c ∈ marks := by
        unfold unescape at hd
        split at hd <;> cases hd <;> decide
      exact absurd rfl (ident_ne_mark hc hmark)

theorem readsAs_attr {key : String} {val : Json} {e : Expression} (hkey : isIdent L key = true)
    (he : jsonValue L val = some e) (hkept : KeptValue L val) (indent : ℕ) :
    ReadsAs L ⟨writeAttr key val indent,none⟩ [.attribute key e] := by
  refine ⟨rfl,fun tail more rest htail => ?_⟩
  have htext : writeAttr key val indent ++ tail = indentPush indent ++
      (key.toList ++ ' ' :: '=' :: ' ' :: (writeValue indent val ++ '\n' :: tail)) := by
    simp [writeAttr]
  have hstarts := startsWith_ident hkey (by decide : ' ' ∈ marks)
    ('=' :: ' ' :: (writeValue indent val ++ '\n' :: tail))
  have hvalue := readValue_written val indent e ('\n' :: tail) he hkept (stops_cons rfl _)
  have hblank : skipBlank (' ' :: (writeValue indent val ++ '\n' :: tail)) =
      writeValue indent val ++ '\n' :: tail := skipBlank_value he _ _
  rw [← hblank] at hvalue
  rw [htext,skipSpace_indent,skipSpace_word hstarts]
  exact settles_attribute hstarts rfl hvalue htail

/-- A property named `//` is written as a comment line. -/
theorem readsAs_comment {val : Json} (hval : FitsLine val) (indent : ℕ) :
    ReadsAs L ⟨writeAttr "//" val indent,none⟩ [] := by
  refine ⟨rfl,fun tail more rest htail => ?_⟩
  have htext : writeAttr "//" val indent ++ tail = indentPush indent ++
      ('/' :: '/' :: ' ' :: '=' :: ' ' :: (writeValue indent val ++ '\n' :: tail)) := by
    simp [writeAttr]
  have hline : ('/' :: '/' :: ' ' :: '=' :: ' ' :: (writeValue indent val ++ '\n' :: tail)).dropWhile
      (fun c => decide (c ≠ '\n')) = '\n' :: tail := by
    have hdrop : (writeValue indent val ++ '\n' :: tail).dropWhile
        (fun c => decide (c ≠ '\n')) = '\n' :: tail := by
      rw [List.dropWhile_append_of_pos]
      · rfl
      · intro c hc
        have hne : c ≠ '\n' := fun h => hval indent (h ▸ hc)
        simpa using hne
    exact hdrop
  rw [htext,skipSpace_indent,skipSpace_of (by decide)]
  apply settles_comment
  · rw [hline]
    exact htail
  · rfl

theorem settles_labels {labels : List String} (h : ∀ label ∈ labels, isIdent L label = true)
    (after : Rope) : Settles (fun m => readLabels L m (skipBlank
      (labels.flatMap (fun label => ' ' :: quoted label) ++ ' ' :: '{' :: after)))
        (labels.map .string,after) := by
  induction labels with
  | nil => exact settles_labels_nil after
  | cons label labels ih =>
    have hlabel := h label List.mem_cons_self
    have hrest := ih fun l hl => h l (List.mem_cons_of_mem label hl)
    have htext : skipBlank ((label :: labels).flatMap (fun label => ' ' :: quoted label) ++
        ' ' :: '{' :: after) = '"' :: (label.toList ++ '"' ::
          (labels.flatMap (fun label => ' ' :: quoted label) ++ ' ' :: '{' :: after)) := by
      rw [List.flatMap_cons,quoted,escape_ident hlabel]
      simp [skipBlank]
    rw [htext]
    exact settles_labels_cons (startsWith_ident hlabel (by decide) _) hrest

/-- A block around what was written for its body. -/
theorem readsAs_braces {ident : String} {labels : List String} (hident : isIdent L ident = true)
    (hlabels : ∀ label ∈ labels, isIdent L label = true) {inner : Written} {body : PlainBody}
    (hinner : ReadsAs L inner body) (indent : ℕ) :
    ReadsAs L ⟨blockHeader ident labels indent ++ inner.text ++ (indentPush indent ++ ['}','\n']),
      none⟩ [.block ident (labels.map .string) body] := by
  refine ⟨rfl,fun tail more rest htail => ?_⟩
  have hend : Settles (fun m => readBody L m (skipSpace (indentPush indent ++ '}' :: '\n' :: tail)))
      ([],'}' :: '\n' :: tail) := by
    rw [skipSpace_indent,skipSpace_of (by decide)]
    exact settles_body_end _ (.inr rfl)
  have hbody := hinner.2 _ _ _ hend
  rw [List.append_nil] at hbody
  have htext : blockHeader ident labels indent ++ inner.text ++ (indentPush indent ++ ['}','\n']) ++
      tail = indentPush indent ++ (ident.toList ++
        (labels.flatMap (fun label => ' ' :: quoted label) ++ ' ' :: '{' :: '\n' ::
          (inner.text ++ (indentPush indent ++ '}' :: '\n' :: tail)))) := by
    simp [blockHeader]
  show Settles (fun m => readBody L m (skipSpace (blockHeader ident labels indent ++ _ ++ _ ++ tail))) _
  rw [htext]
  generalize inner.text ++ (indentPush indent ++ '}' :: '\n' :: tail) = inside at hbody ⊢
  have hafter : ∃ after, labels.flatMap (fun label => ' ' :: quoted label) ++
      ' ' :: '{' :: '\n' :: inside = ' ' :: after ∧ after.head? ≠ some '=' ∧
        skipBlank (' ' :: after) = after := by
    cases labels with
    | nil => exact ⟨_,rfl,by simp,rfl⟩
    | cons label labels => exact ⟨_,rfl,by simp [quoted],rfl⟩
  obtain ⟨after,hafter,hequals,hblank⟩ := hafter
  have hread := settles_labels hlabels ('\n' :: inside)
  rw [hafter] at hread ⊢
  have hstarts := startsWith_ident hident (by decide : ' ' ∈ marks) after
  rw [skipSpace_indent,skipSpace_word hstarts]
  exact settles_block hstarts (by rwa [hblank]) hread hbody htail

theorem readsAs_block {ident : String} {labels : List String} (hident : isIdent L ident = true)
    (hlabels : ∀ label ∈ labels, isIdent L label = true) {indent : ℕ}
    {fields : List (String × Json)} {body : PlainBody}
    (hentries : ReadsAs L (writeEntries (indent+1) fields) body) :
    ReadsAs L (writeBlock ident labels indent (.object fields))
      [.block ident (labels.map .string) body] := by
  have hwritten : writeBlock ident labels indent (.object fields) =
      ⟨blockHeader ident labels indent ++ (writeEntries (indent+1) fields).text ++
        (indentPush indent ++ ['}','\n']),none⟩ := by
    rw [writeBlock,Written.andThen,Written.andThen,hentries.1]
  rw [hwritten]
  exact readsAs_braces hident hlabels hentries indent

theorem not_nested_of_fitsLine {items : List Json} (h : FitsLine (.array items)) :
    (items.all Json.isObject && !items.isEmpty) = false := by
  cases items with
  | nil => rfl
  | cons v vs =>
    cases v with
    | object fields =>
      apply absurd (h 0)
      rw [not_not]
      simp [writeValue,writeItems]
    | _ => rfl

/-- What is written for a property of a block. -/
def writeEntry (key : String) (val : Json) (indent : ℕ) : Written :=
  match val with
  | .array items =>
    if items.all Json.isObject && !items.isEmpty then writeBlocks key indent items
    else ⟨writeAttr key val indent,none⟩
  | _ => ⟨writeAttr key val indent,none⟩

theorem writeEntries_cons (key : String) (val : Json) (fields : List (String × Json))
    (indent : ℕ) : writeEntries indent ((key,val) :: fields) =
      (writeEntry key val indent).andThen (writeEntries indent fields) := by
  cases val <;> simp only [writeEntries,writeEntry]

theorem writeEntry_comment {val : Json} (h : FitsLine val) (key : String) (indent : ℕ) :
    writeEntry key val indent = ⟨writeAttr key val indent,none⟩ := by
  cases val with
  | array items =>
    show (if _ then _ else _) = _
    rw [not_nested_of_fitsLine h]
    rfl
  | _ => rfl

theorem readsAs_single {key : String} {val : Json} {body : PlainBody} (hkey : isIdent L key = true)
    (h : ((jsonValue L val).map fun e => [PlainStructure.attribute key e]) = some body)
    (hkept : KeptValue L val) (indent : ℕ) :
    ReadsAs L ⟨writeAttr key val indent,none⟩ body := by
  obtain ⟨e,he,rfl⟩ := Option.map_eq_some_iff.mp h
  exact readsAs_attr hkey he hkept indent

theorem jsonEntry_single {val : Json} (hval : ∀ items, val ≠ .array items) (key : String) :
    jsonEntry L key val = (jsonValue L val).map fun e => [.attribute key e] := by
  cases val with
  | array items => exact absurd rfl (hval items)
  | _ => simp only [jsonEntry]

theorem keptEntry_single {val : Json} (hval : ∀ items, val ≠ .array items) :
    KeptEntry L val = KeptValue L val := by
  cases val with
  | array items => exact absurd rfl (hval items)
  | _ => simp only [KeptEntry]

mutual

theorem readsAs_entry : ∀ (val : Json) (key : String) (indent : ℕ) (body : PlainBody),
    isIdent L key = true → jsonEntry L key val = some body → KeptEntry L val →
      ReadsAs L (writeEntry key val indent) body
  | .array items, key, indent, body, hkey, h, hkept => by
    rw [jsonEntry] at h
    rw [KeptEntry] at hkept
    show ReadsAs L (if _ then _ else _) body
    by_cases hitems : (items.all Json.isObject && !items.isEmpty) = true
    · rw [if_pos hitems] at h hkept ⊢
      exact readsAs_nested items key indent body hkey h hkept
    · rw [if_neg hitems] at h hkept ⊢
      exact readsAs_single hkey h hkept indent
  | .null, key, indent, body, hkey, h, hkept => by
    rw [jsonEntry_single (by simp)] at h
    rw [keptEntry_single (by simp)] at hkept
    exact readsAs_single hkey h hkept indent
  | .bool _, key, indent, body, hkey, h, hkept => by
    rw [jsonEntry_single (by simp)] at h
    rw [keptEntry_single (by simp)] at hkept
    exact readsAs_single hkey h hkept indent
  | .number _, key, indent, body, hkey, h, hkept => by
    rw [jsonEntry_single (by simp)] at h
    rw [keptEntry_single (by simp)] at hkept
    exact readsAs_single hkey h hkept indent
  | .string _, key, indent, body, hkey, h, hkept => by
    rw [jsonEntry_single (by simp)] at h
    rw [keptEntry_single (by simp)] at hkept
    exact readsAs_single hkey h hkept indent
  | .object _, key, indent, body, hkey, h, hkept => by
    rw [jsonEntry_single (by simp)] at h
    rw [keptEntry_single (by simp)] at hkept
    exact readsAs_single hkey h hkept indent

theorem readsAs_entries : ∀ (fields : List (String × Json)) (indent : ℕ) (body : PlainBody),
    jsonEntries L fields = some body → KeptEntries L fields →
      ReadsAs L (writeEntries indent fields) body
  | [], indent, body, h, _ => by
    rw [jsonEntries] at h
    cases h
    exact readsAs_nil
  | (key,val)::fields, indent, body, h, hkept => by
    rw [jsonEntries] at h
    obtain ⟨first,hfirst,h⟩ := Option.bind_eq_some_iff.mp h
    obtain ⟨more,hmore,rfl⟩ := Option.map_eq_some_iff.mp h
    rw [KeptEntries] at hkept
    obtain ⟨hval,hrest⟩ := hkept
    rw [writeEntries_cons]
    apply ReadsAs.andThen _ (readsAs_entries fields indent more hmore hrest)
    split_ifs at hfirst hval with hkey hident
    · cases hfirst
      rw [writeEntry_comment hval,hkey]
      exact readsAs_comment hval indent
    · exact readsAs_entry val key indent first hident hfirst hval

theorem readsAs_nested : ∀ (entries : List Json) (ident : String) (indent : ℕ) (body : PlainBody),
    isIdent L ident = true → jsonNested L ident entries = some body → KeptNested L entries →
      ReadsAs L (writeBlocks ident indent entries) body
  | [], ident, indent, body, _, h, _ => by
    rw [jsonNested] at h
    cases h
    exact readsAs_nil
  | entry::entries, ident, indent, body, hident, h, hkept => by
    rw [jsonNested] at h
    obtain ⟨inner,hinner,h⟩ := Option.bind_eq_some_iff.mp h
    obtain ⟨more,hmore,rfl⟩ := Option.map_eq_some_iff.mp h
    rw [KeptNested] at hkept
    rw [writeBlocks]
    exact ReadsAs.andThen (readsAs_object entry ident [] indent inner hident (by simp) hinner hkept.1)
      (readsAs_nested entries ident indent more hident hmore hkept.2)

theorem readsAs_object : ∀ (val : Json) (ident : String) (labels : List String) (indent : ℕ)
    (body : PlainBody), isIdent L ident = true → (∀ label ∈ labels, isIdent L label = true) →
      jsonObject L val = some body → KeptObject L val →
        ReadsAs L (writeBlock ident labels indent val) [.block ident (labels.map .string) body]
  | .object fields, ident, labels, indent, body, hident, hlabels, h, hkept => by
    rw [jsonObject] at h
    rw [KeptObject] at hkept
    exact readsAs_block hident hlabels (readsAs_entries fields (indent+1) body h hkept)
  | .null, _, _, _, _, _, _, h, _ => by simp only [jsonObject] at h; cases h
  | .bool _, _, _, _, _, _, _, h, _ => by simp only [jsonObject] at h; cases h
  | .number _, _, _, _, _, _, _, h, _ => by simp only [jsonObject] at h; cases h
  | .string _, _, _, _, _, _, _, h, _ => by simp only [jsonObject] at h; cases h
  | .array _, _, _, _, _, _, _, h, _ => by simp only [jsonObject] at h; cases h

end

end writing

section documents

variable {L : Lexicon}

theorem readsAs_all {α : Type} {write : α → Written} {f : α → Option PlainBody} {as : List α}
    {body : PlainBody} (h : ∀ a ∈ as, ∀ b, f a = some b → ReadsAs L (write a) b)
    (hbody : concatBodies f as = some body) : ReadsAs L (writeAll write as) body := by
  have hfrom : ∀ (as : List α) (w : Written) (before body : PlainBody), ReadsAs L w before →
      (∀ a ∈ as, ∀ b, f a = some b → ReadsAs L (write a) b) → concatBodies f as = some body →
        ReadsAs L (as.foldl (fun w a => w.andThen (write a)) w) (before ++ body) := by
    intro as
    induction as with
    | nil =>
      intro w before body hw _ hbody
      cases hbody
      rwa [List.append_nil]
    | cons a as ih =>
      intro w before body hw h hbody
      rw [concatBodies] at hbody
      obtain ⟨first,hfirst,hbody⟩ := Option.bind_eq_some_iff.mp hbody
      obtain ⟨more,hmore,rfl⟩ := Option.map_eq_some_iff.mp hbody
      rw [← List.append_assoc]
      exact ih _ _ more (hw.andThen (h a List.mem_cons_self first hfirst))
        (fun b hb => h b (List.mem_cons_of_mem a hb)) hmore
  exact hfrom as _ [] body readsAs_nil h hbody

theorem concatBodies_single {α : Type} (f : α → Option PlainBody) (a : α) :
    concatBodies f [a] = f a := by
  rw [concatBodies,concatBodies]
  cases f a with
  | none => rfl
  | some body => simp

theorem asObjects_object (fields : List (String × Json)) :
    asObjects (.object fields) = [.object fields] := rfl

/-- The keywords of the language are words. -/
theorem isIdent_keyword {key : String} (h : key ∈ topLevelKeys) : isIdent L key = true := by
  have hletters : ∀ key ∈ topLevelKeys, key.toList ≠ [] ∧ key.toList.all Char.isAlpha = true := by
    decide
  obtain ⟨hne,hall⟩ := hletters key h
  rw [isIdent,Bool.and_eq_true,decide_eq_true_eq]
  refine ⟨hne,List.all_eq_true.mpr fun c hc => ?_⟩
  exact L.identChar_alpha c (List.all_eq_true.mp hall c hc)

theorem keptObject_of_blocks {val : Json} (h : KeptBlocks L 0 val) : KeptObject L val := by
  cases val with
  | object fields =>
    rw [KeptBlocks] at h
    rwa [KeptObject]
  | _ => simp only [KeptBlocks] at h

/-- Blocks with the labels that were met on the way. -/
theorem readsAs_blocks {ident : String} {labels : List String} {val : Json} {body : PlainBody}
    (hident : isIdent L ident = true) (hlabels : ∀ label ∈ labels, isIdent L label = true)
    (hbody : jsonBlocks L ident 0 labels val = some body) (hkept : KeptBlocks L 0 val) :
    ReadsAs L (writeBlock ident labels 0 val) body := by
  cases val with
  | object fields =>
    rw [jsonBlocks,asObjects_object,concatBodies_single] at hbody
    obtain ⟨inner,hinner,rfl⟩ := Option.map_eq_some_iff.mp hbody
    exact readsAs_object _ ident labels 0 inner hident hlabels hinner (keptObject_of_blocks hkept)
  | _ => simp only [KeptBlocks] at hkept

/-- A layer of labels. -/
theorem readsAs_layer {ident : String} {depth : ℕ} {labels : List String}
    {fields : List (String × Json)} {body : PlainBody} {write : String × Json → Written}
    (hbody : jsonBlocks L ident (depth+1) labels (.object fields) = some body)
    (hkept : KeptBlocks L (depth+1) (.object fields))
    (hwrite : ∀ label inner b, isIdent L label = true →
      jsonBlocks L ident depth (labels ++ [label]) inner = some b → KeptBlocks L depth inner →
        ReadsAs L (write (label,inner)) b) : ReadsAs L (writeAll write fields) body := by
  rw [jsonBlocks,asObjects_object,concatBodies_single] at hbody
  apply readsAs_all _ hbody
  intro field hfield b hb
  have hident : isIdent L field.1 = true := by
    by_contra hident
    simp only [if_neg hident] at hb
    cases hb
  simp only [if_pos hident] at hb
  exact hwrite field.1 field.2 b hident hb (hkept field hfield)

theorem exists_fields {depth : ℕ} {val : Json} (h : KeptBlocks L depth val) :
    ∃ fields, val = .object fields := by
  cases val with
  | object fields => exact ⟨fields,rfl⟩
  | _ => cases depth <;> simp only [KeptBlocks] at h

theorem readsAs_oneLabel {ident : String} {val : Json} {body : PlainBody}
    (hident : isIdent L ident = true) (hone : ¬(ident = "resource" ∨ ident = "data"))
    (hbody : jsonBlocks L ident 1 [] val = some body) (hkept : KeptBlocks L 1 val) :
    ReadsAs L (writeLabeledGroup ident val) body := by
  obtain ⟨fields,rfl⟩ := exists_fields hkept
  apply readsAs_layer hbody hkept
  intro label inner b hlabel hb hinner
  simp only [if_neg hone]
  exact readsAs_blocks hident (by simpa using hlabel) hb hinner

theorem readsAs_twoLabels {ident : String} {val : Json} {body : PlainBody}
    (hident : isIdent L ident = true) (htwo : ident = "resource" ∨ ident = "data")
    (hbody : jsonBlocks L ident 2 [] val = some body) (hkept : KeptBlocks L 2 val) :
    ReadsAs L (writeLabeledGroup ident val) body := by
  obtain ⟨fields,rfl⟩ := exists_fields hkept
  apply readsAs_layer hbody hkept
  intro label inner b hlabel hb hinner
  obtain ⟨named,rfl⟩ := exists_fields hinner
  simp only [if_pos htwo]
  apply readsAs_layer hb hinner
  intro name inner b hname hb hinner
  exact readsAs_blocks hident (by simp [hlabel,hname]) hb hinner

theorem readsAs_attrs {fields : List (String × Json)} {body : PlainBody}
    (hbody : jsonAttrs L fields = some body) (hkept : KeptLocals L (.object fields)) (indent : ℕ) :
    ReadsAs L ⟨fields.flatMap fun (name,v) => writeAttr name v indent,none⟩ body := by
  induction fields generalizing body with
  | nil =>
    cases hbody
    exact readsAs_nil
  | cons field fields ih =>
    obtain ⟨key,val⟩ := field
    rw [jsonAttrs,concatBodies] at hbody
    obtain ⟨first,hfirst,hbody⟩ := Option.bind_eq_some_iff.mp hbody
    obtain ⟨more,hmore,rfl⟩ := Option.map_eq_some_iff.mp hbody
    have hrest := ih hmore fun f hf => hkept f (List.mem_cons_of_mem _ hf)
    have hval := hkept (key,val) List.mem_cons_self
    apply ReadsAs.andThen (a:=⟨writeAttr key val indent,none⟩) _ hrest
    by_cases hkey : key = "//"
    · simp only [if_pos hkey] at hfirst hval
      cases hfirst
      rw [hkey]
      exact readsAs_comment hval indent
    · simp only [if_neg hkey] at hfirst hval
      split_ifs at hfirst with hident
      exact readsAs_single hident hfirst hval indent

theorem readsAs_locals {val : Json} {body : PlainBody} (hbody : jsonLocals L val = some body)
    (hkept : KeptLocals L val) : ReadsAs L (writeLocals val) body := by
  cases val with
  | object fields =>
    rw [jsonLocals,asObjects_object,concatBodies_single] at hbody
    obtain ⟨inner,hinner,rfl⟩ := Option.map_eq_some_iff.mp hbody
    have hident : isIdent L "locals" = true := isIdent_keyword (by decide)
    have hlabels : ∀ label ∈ ([] : List String), isIdent L label = true := by simp
    have hblock := readsAs_braces hident hlabels (readsAs_attrs hinner hkept 1) 0
    have hheader : blockHeader "locals" [] 0 = "locals ".toList ++ ['{','\n'] := by
      simp [blockHeader,indentPush]
    rw [hheader] at hblock
    exact hblock
  | _ => simp only [KeptLocals] at hkept

theorem readsAs_topLevel {key : String} {val : Json} {body : PlainBody} (hkey : key ∈ layeredKeys)
    (hbody : jsonBlocks L key (labelCount key) [] val = some body)
    (hkept : KeptBlocks L (labelCount key) val) : ReadsAs L (writeTopLevel key val) body := by
  have htop : ∀ key ∈ layeredKeys, key ∈ topLevelKeys := by decide
  have hident : isIdent L key = true := isIdent_keyword (htop key hkey)
  have hcases : ∀ key ∈ layeredKeys, key = "terraform" ∨
      (key ∈ ["resource","data"] ∨ key ∈ ["variable","output","module","provider","check"]) := by
    decide
  obtain rfl | htwo | hone := hcases key hkey
  · exact readsAs_blocks hident (by simp) hbody hkept
  · have hgroup : writeTopLevel key val = writeLabeledGroup key val ∧ labelCount key = 2 := by
      simp only [List.mem_cons,List.not_mem_nil,or_false] at htwo
      rcases htwo with rfl | rfl <;> exact ⟨rfl,rfl⟩
    rw [hgroup.2] at hbody hkept
    rw [hgroup.1]
    exact readsAs_twoLabels hident (by simpa using htwo) hbody hkept
  · have hgroup : writeTopLevel key val = writeLabeledGroup key val ∧ labelCount key = 1 := by
      simp only [List.mem_cons,List.not_mem_nil,or_false] at hone
      rcases hone with rfl | rfl | rfl | rfl | rfl <;> exact ⟨rfl,rfl⟩
    rw [hgroup.2] at hbody hkept
    rw [hgroup.1]
    refine readsAs_oneLabel hident ?_ hbody hkept
    rintro (rfl | rfl) <;> revert hone <;> decide

/-- The text of a kept document is read as the document says. -/
theorem readsAs_translate {root : List (String × Json)} {body : PlainBody}
    (hbody : documentBody L root = some body) (hkept : Kept L root) :
    ReadsAs L ⟨(translate root).1,none⟩ body := by
  induction root generalizing body with
  | nil =>
    cases hbody
    exact readsAs_nil
  | cons e root ih =>
    obtain ⟨key,val⟩ := e
    rw [documentBody,concatBodies] at hbody
    obtain ⟨first,hfirst,hbody⟩ := Option.bind_eq_some_iff.mp hbody
    obtain ⟨more,hmore,rfl⟩ := Option.map_eq_some_iff.mp hbody
    have hrest := ih hmore fun f hf => hkept f (List.mem_cons_of_mem _ hf)
    by_cases hkey : key ∈ topLevelKeys
    · have hcomment : key ≠ "//" := by
        rintro rfl
        revert hkey
        decide
      have hwritten : ReadsAs L (writeTopLevel key val) first := by
        obtain h | ⟨h,hlocals⟩ | ⟨h,hblocks⟩ := hkept (key,val) List.mem_cons_self
        · exact absurd h hcomment
        · have h : key = "locals" := h
          subst h
          exact readsAs_locals hfirst hlocals
        · have hlocals : key ≠ "locals" := by
            rintro rfl
            have h : "locals" ∈ layeredKeys := h
            revert h
            decide
          simp only [if_neg hcomment,if_neg hlocals,not_not.mpr hkey,if_false] at hfirst
          exact readsAs_topLevel h hfirst hblocks
      have htext : (translate ((key,val) :: root)).1 =
          (writeTopLevel key val).text ++ (translate root).1 := by
        rw [translate]
        simp only [if_pos hkey]
      have hnone : (writeTopLevel key val).andThen ⟨(translate root).1,none⟩ =
          ⟨(translate ((key,val) :: root)).1,none⟩ := by
        rw [Written.andThen,hwritten.1,htext]
      rw [← hnone]
      exact hwritten.andThen hrest
    · have htext : (translate ((key,val) :: root)).1 = (translate root).1 := by
        rw [translate]
        simp only [if_neg hkey]
      have hfirst : first = [] := by
        by_cases hcomment : key = "//"
        · simp only [if_pos hcomment] at hfirst
          exact (Option.some.inj hfirst).symm
        · simp only [if_neg hcomment,if_pos hkey] at hfirst
          cases hfirst
      rw [htext,hfirst]
      exact hrest

theorem reads_translate {root : List (String × Json)} {body : PlainBody}
    (hbody : documentBody L root = some body) (hkept : Kept L root) :
    Settles (fun m => readSource L m (translate root).1) body := by
  have hend := settles_body_end (L:=L) [] (.inl rfl)
  have hread := (readsAs_translate hbody hkept).2 [] [] [] hend
  rw [List.append_nil,List.append_nil] at hread
  exact settles_bind hread (settles_const fun _ => rfl)

end documents

section samples

def isSampleIdent (c : Char) : Bool := c.isAlphanum || c ∈ ['_','-']

/-- An expression in a template ends at the first brace and holds no backslash. -/
def sampleClose (text : Rope) : Option (Rope × Rope) :=
  let inside := text.takeWhile fun c => c ≠ '}'
  if '\\' ∈ inside then none
  else (expect '}' (text.dropWhile fun c => c ≠ '}')).map fun after => (inside,after)

def pieceChar : Piece → Option Char
  | .char c => some c
  | .sequence _ _ => none

/-- `upper("b")` is a call, and any other expression a variable. -/
def sampleElement : Piece → Element
  | .char c => .literal (String.ofList [c])
  | .sequence _ text =>
    if text = "upper(\"b\")".toList then .interpolation (.funcCall [] "upper" [.string "b"])
    else .interpolation (.variable (String.ofList text))

def sampleTemplate (pieces : List Piece) : Option Expression :=
  match pieces.mapM pieceChar with
  | some text => some (.string (String.ofList text))
  | none => some (.stringTemplate (pieces.map sampleElement))

theorem sampleClose_split (text inside after : Rope) (h : sampleClose text = some (inside,after)) :
    text = inside ++ '}' :: after ∧ '\\' ∉ inside ∧ ∀ c ∈ inside, c ≠ '}' := by
  rw [sampleClose] at h
  split_ifs at h with hbackslash
  obtain ⟨rest,hexpect,hpair⟩ := Option.map_eq_some_iff.mp h
  cases hpair
  rw [expect] at hexpect
  split_ifs at hexpect with hhead
  obtain ⟨tail,htail⟩ := List.head?_eq_some_iff.mp hhead
  have hsplit := List.takeWhile_append_dropWhile (p:=fun c => decide (c ≠ '}')) (l:=text)
  rw [htail] at hexpect hsplit
  cases hexpect
  refine ⟨hsplit.symm,hbackslash,fun c hc => ?_⟩
  have hall := List.all_eq_true.mp (List.all_takeWhile (p:=fun c => decide (c ≠ '}')) (l:=text)) c hc
  simpa using hall

theorem sampleClose_local (inside after after' : Rope)
    (h : sampleClose (inside ++ '}' :: after) = some (inside,after)) :
    sampleClose (inside ++ '}' :: after') = some (inside,after') := by
  obtain ⟨-,hbackslash,hbrace⟩ := sampleClose_split _ _ _ h
  have hall : ∀ c ∈ inside, decide (c ≠ '}') = true := fun c hc => by simpa using hbrace c hc
  have htake : (inside ++ '}' :: after').takeWhile (fun c => decide (c ≠ '}')) = inside := by
    rw [List.takeWhile_append_of_pos hall]
    simp
  have hdrop : (inside ++ '}' :: after').dropWhile (fun c => decide (c ≠ '}')) = '}' :: after' := by
    rw [List.dropWhile_append_of_pos hall]
    rfl
  rw [sampleClose]
  simp only [htake,hdrop,if_neg hbackslash,expect_self,Option.map_some]

def sampleLexicon : Lexicon where
  isIdentChar := isSampleIdent
  close := sampleClose
  template := sampleTemplate
  number := fun digits => some (.number (String.ofList digits))
  identChar_alpha c hc := by simp [isSampleIdent,Char.isAlphanum,hc]
  identChar_marks := by simp [marks,isSampleIdent]
  close_split text inside after h := (sampleClose_split text inside after h).1
  close_local := sampleClose_local
  template_chars text := by
    have hchars : (text.map Piece.char).mapM pieceChar = some text := by
      induction text with
      | nil => rfl
      | cons c text ih =>
        rw [List.map_cons,List.mapM_cons,ih]
        rfl
    rw [sampleTemplate,hchars]

mutual

def placeStructure : PlainStructure → SpannedStructure
  | .attribute key value => .attribute none key none value
  | .block ident labels body =>
    .block none ident none (labels.map fun label => (label,none)) (placeBody body)

def placeBody : PlainBody → SpannedBody
  | [] => []
  | item::body => placeStructure item :: placeBody body

end

mutual

theorem erase_placeStructure : ∀ item : PlainStructure, eraseStructure (placeStructure item) = item
  | .attribute key value => rfl
  | .block ident labels body => by
    rw [placeStructure,eraseStructure,erase_placeBody body]
    simp [Function.comp_def]

theorem erase_placeBody : ∀ body : PlainBody, eraseBody (placeBody body) = body
  | [] => rfl
  | item::body => by rw [placeBody,eraseBody,erase_placeStructure item,erase_placeBody body]

end

open Classical in
/-- A parser of plain texts alone. -/
noncomputable def sampleParsers (source : String) (root : List (String × Json)) : Parsers where
  fromStr s := if s = source then .ok (.object root) else .error "expected value"
  parseSource text :=
    if h : ∃ body, Settles (fun fuel => readSource sampleLexicon fuel text) body then
      ⟨some (placeBody h.choose),[]⟩
    else ⟨none,[.syntaxError "unexpected token"]⟩

theorem sampleParsers_plain (source : String) (root : List (String × Json)) :
    ParsesPlain (sampleParsers source root) sampleLexicon := by
  intro text body hbody
  have h : ∃ body, Settles (fun fuel => readSource sampleLexicon fuel text) body := ⟨body,hbody⟩
  refine ⟨placeBody h.choose,?_,?_⟩
  · simp only [sampleParsers,dif_pos h]
  · rw [erase_placeBody]
    exact settles_unique h.choose_spec hbody

theorem sampleParsers_source (source : String) (root : List (String × Json)) :
    (sampleParsers source root).fromStr source = .ok (.object root) := by
  simp only [sampleParsers,if_true]

/-- `{"output":{"a":{"value":S}}}`. -/
def outputRoot (value : String) : List (String × Json) :=
  [("output",.object [("a",.object [("value",.string value)])])]

/-- The body of `{"output":{"a":{"value":"${upper(\"b\")}"}}}`. -/
def quotesRoot : List (String × Json) := outputRoot "$\x7bupper(\"b\")\x7d"

def quotesSource : String :=
  "\x7b\"output\":\x7b\"a\":\x7b\"value\":\"$\x7bupper(\\\"b\\\")\x7d\"\x7d\x7d\x7d"

/-- The quotes of a call in an interpolation are escaped, and the text does not parse. -/
theorem quotes_rejected (fuel : ℕ) :
    readSource sampleLexicon fuel (translate quotesRoot).1 = none := by
  match fuel with
  | 0 => rfl
  | 1 => rfl
  | 2 => rfl
  | 3 => rfl
  | 4 => rfl
  | fuel+5 => rfl

theorem region_kept : Kept sampleLexicon (outputRoot "in $\x7bregion\x7d") := by
  intro e he
  rw [List.mem_singleton.mp he]
  refine .inr (.inr ⟨by decide,?_⟩)
  show KeptBlocks sampleLexicon 1 _
  rw [KeptBlocks]
  intro field hfield
  rw [List.mem_singleton.mp hfield,KeptBlocks]
  simp only [KeptEntries,and_true]
  rw [if_neg (by decide),KeptEntry,KeptValue]
  · intro pieces hpieces marker text hmem
    have hread : stringPieces sampleLexicon "in $\x7bregion\x7d" =
        some [.char 'i',.char 'n',.char ' ',.sequence '$' "region".toList] := by decide
    rw [hread] at hpieces
    cases hpieces
    simp only [List.mem_cons,List.not_mem_nil,or_false,reduceCtorEq,false_or] at hmem
    cases hmem
    decide
  · simp

end samples
end JsonConfig
end TerraformLs
