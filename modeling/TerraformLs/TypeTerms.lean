import TerraformLs.Hcl
import TerraformLs.Rope

/-! Expressions of one line, made of words, calls with one argument, lists and objects
with bare keys, and what is known of a reader of the language: how it reads these, and
how the keys of any object it reads stand in the text. -/
namespace TerraformLs

/-- The characters with a meaning in such expressions, in quoted texts among them. -/
def wordBreaks : List Char := [' ','(',')','[',']','{','}',',','=','"','\\']

/-- The characters of identifiers. -/
structure WordChars where
  isStart : Char → Bool
  isContinue : Char → Bool
  start_alpha : ∀ c : Char, c.isAlpha = true → isStart c = true
  continue_start : ∀ c : Char, isStart c = true → isContinue c = true
  continue_breaks : ∀ c ∈ wordBreaks, isContinue c = false

namespace WordChars

variable (W : WordChars)

/-- A text that is one identifier. -/
def IsIdent (w : String) : Prop :=
  ∃ c rest, w.toList = c :: rest ∧ W.isStart c = true ∧ ∀ d ∈ rest, W.isContinue d = true

/-- An identifier that stands for itself as a key. -/
def IsName (w : String) : Prop := W.IsIdent w ∧ w ∉ ["null","true","false"]

/-- An identifier that can stand anywhere. -/
def IsWord (w : String) : Prop := W.IsName w ∧ w ≠ "for"

variable {W}

theorem IsIdent.continues {w : String} (h : W.IsIdent w) :
    ∀ c ∈ w.toList, W.isContinue c = true := by
  obtain ⟨c,rest,hw,hstart,hrest⟩ := h
  rw [hw]
  intro d hd
  rcases List.mem_cons.mp hd with rfl | hd
  · exact W.continue_start _ hstart
  · exact hrest d hd

theorem IsIdent.not_mem {w : String} (h : W.IsIdent w) {c : Char} (hc : c ∈ wordBreaks) :
    c ∉ w.toList := by
  intro hmem
  have hcont := h.continues c hmem
  rw [W.continue_breaks c hc] at hcont
  cases hcont

theorem isIdent_of_alpha {w : String} (hne : w.toList ≠ [])
    (h : w.toList.all Char.isAlpha = true) : W.IsIdent w := by
  cases hw : w.toList with
  | nil => exact absurd hw hne
  | cons c rest =>
    rw [hw,List.all_eq_true] at h
    exact ⟨c,rest,hw,W.start_alpha c (h c List.mem_cons_self),
      fun d hd => W.continue_start d (W.start_alpha d (h d (List.mem_cons_of_mem c hd)))⟩

end WordChars

inductive TypeTerm
  | word (w : String)
  | call (function : String) (arg : TypeTerm)
  | array (items : List TypeTerm)
  | object (fields : List (String × TypeTerm))

namespace TypeTerm

@[induction_eliminator]
theorem ind {motive : TypeTerm → Prop} (word : ∀ w, motive (.word w))
    (call : ∀ f arg, motive arg → motive (.call f arg))
    (array : ∀ items, (∀ item ∈ items, motive item) → motive (.array items))
    (object : ∀ fields, (∀ field ∈ fields, motive field.2) → motive (.object fields)) :
    ∀ s, motive s := fun s =>
  @TypeTerm.rec motive (fun items => ∀ item ∈ items, motive item)
    (fun fields => ∀ field ∈ fields, motive field.2) (fun f => motive f.2)
    word call array object (by simp)
    (fun _ _ hhead htail => List.forall_mem_cons.mpr ⟨hhead,htail⟩) (by simp)
    (fun _ _ hhead htail => List.forall_mem_cons.mpr ⟨hhead,htail⟩) (fun _ _ h => h) s

def comma : Rope := [',',' ']

mutual

def text : TypeTerm → Rope
  | .word w => w.toList
  | .call f arg => f.toList ++ '(' :: (text arg ++ [')'])
  | .array items => '[' :: (comma.intercalate (textItems items) ++ [']'])
  | .object fields => '{' :: ' ' :: (comma.intercalate (textFields fields) ++ [' ','}'])

def textItems : List TypeTerm → List Rope
  | [] => []
  | s :: items => text s :: textItems items

def textFields : List (String × TypeTerm) → List Rope
  | [] => []
  | (k,s) :: fields => (k.toList ++ ' ' :: '=' :: ' ' :: text s) :: textFields fields

end

mutual

/-- The expression that is written. -/
def expr : TypeTerm → Expression
  | .word w => .variable w
  | .call f arg => .funcCall [] f [expr arg]
  | .array items => .array (exprItems items)
  | .object fields => .object (exprFields fields)

def exprItems : List TypeTerm → List Expression
  | [] => []
  | s :: items => expr s :: exprItems items

def exprFields : List (String × TypeTerm) → List (ObjectKey × Expression)
  | [] => []
  | (k,s) :: fields => (.ident k,expr s) :: exprFields fields

end

/-- Words and keys are what they have to be. -/
inductive Named (W : WordChars) : TypeTerm → Prop
  | word {w} (hw : W.IsWord w) : Named W (.word w)
  | call {f arg} (hf : W.IsWord f) (harg : Named W arg) : Named W (.call f arg)
  | array {items} (hitems : ∀ s ∈ items, Named W s) : Named W (.array items)
  | object {fields} (hkeys : ∀ f ∈ fields, W.IsName f.1)
      (hfields : ∀ f ∈ fields, Named W f.2) : Named W (.object fields)

/-- No object begins with the key `for`, which begins a comprehension. -/
inductive ForFree : TypeTerm → Prop
  | word {w} : ForFree (.word w)
  | call {f arg} (harg : ForFree arg) : ForFree (.call f arg)
  | array {items} (hitems : ∀ s ∈ items, ForFree s) : ForFree (.array items)
  | object {fields} (hfirst : ∀ f, fields.head? = some f → f.1 ≠ "for")
      (hfields : ∀ f ∈ fields, ForFree f.2) : ForFree (.object fields)

section distinct

variable {W : WordChars}

/-- What can come after a term. -/
def Ends (W : WordChars) (rest : Rope) : Prop :=
  ∀ c, rest.head? = some c → W.isContinue c = false ∧ c ≠ '('

theorem ends_nil : Ends W [] := fun c h => by cases h

theorem ends_cons {c : Char} (rest : Rope) (hc : c ∈ wordBreaks) (hparen : c ≠ '(') :
    Ends W (c :: rest) := by
  intro d hd
  cases hd
  exact ⟨W.continue_breaks c hc,hparen⟩

/-- A word is as long as it can be. -/
theorem word_inj {w w' : String} {r r' : Rope} (hw : W.IsIdent w) (hw' : W.IsIdent w')
    (hr : ∀ c, r.head? = some c → W.isContinue c = false)
    (hr' : ∀ c, r'.head? = some c → W.isContinue c = false)
    (h : w.toList ++ r = w'.toList ++ r') : w = w' ∧ r = r' := by
  have htake : ∀ {w : String} {r : Rope}, W.IsIdent w →
      (∀ c, r.head? = some c → W.isContinue c = false) →
      (w.toList ++ r).takeWhile W.isContinue = w.toList := by
    intro w r hw hr
    rw [List.takeWhile_append_of_pos hw.continues]
    cases r with
    | nil => simp
    | cons c r => simp [hr c rfl]
  have hsame : w.toList = w'.toList := by
    rw [← htake hw hr,h,htake hw' hr']
  rw [hsame] at h
  exact ⟨String.toList_inj.mp hsame,List.append_cancel_left h⟩

/-- What comes after the first of some texts with commas between them. -/
def after (texts : List Rope) (rest : Rope) : Rope :=
  match texts with
  | [] => rest
  | _ :: _ => ',' :: ' ' :: (comma.intercalate texts ++ rest)

theorem intercalate_cons_after (t : Rope) (texts : List Rope) (rest : Rope) :
    comma.intercalate (t :: texts) ++ rest = t ++ after texts rest := by
  cases texts with
  | nil => simp [after,List.intercalate_singleton]
  | cons u texts =>
    rw [List.intercalate_cons_cons,after]
    simp [comma]

/-- Lists with commas between their items, up to a closing character. -/
theorem separated_inj {α : Type} {f : α → Rope} {close : Char} (hclose : close ∈ wordBreaks)
    (hparen : close ≠ '(') (hcomma : close ≠ ',') {l l' : List α} {r r' : Rope}
    (hinj : ∀ a ∈ l, ∀ a' ∈ l', ∀ r r', Ends W r → Ends W r' →
      f a ++ r = f a' ++ r' → a = a' ∧ r = r')
    (hhead : ∀ a ∈ l, ∀ rest, (f a ++ rest).head? ≠ some close)
    (hhead' : ∀ a ∈ l', ∀ rest, (f a ++ rest).head? ≠ some close)
    (h : comma.intercalate (l.map f) ++ close :: r =
      comma.intercalate (l'.map f) ++ close :: r') : l = l' ∧ r = r' := by
  have hends : ∀ (l : List α) (r : Rope), Ends W (after (l.map f) (close :: r)) := by
    intro l r
    cases l with
    | nil => exact ends_cons r hclose hparen
    | cons a l => exact ends_cons _ (by simp [wordBreaks]) (by decide)
  induction l generalizing l' with
  | nil =>
    cases l' with
    | nil => exact ⟨rfl,(List.cons.inj h).2⟩
    | cons a l' =>
      rw [List.map_cons,intercalate_cons_after] at h
      exact absurd (congrArg List.head? h).symm (hhead' a List.mem_cons_self _)
  | cons a l ih =>
    rw [List.map_cons,intercalate_cons_after] at h
    cases l' with
    | nil => exact absurd (congrArg List.head? h) (hhead a List.mem_cons_self _)
    | cons a' l' =>
      rw [List.map_cons,intercalate_cons_after] at h
      obtain ⟨rfl,hrest⟩ := hinj a List.mem_cons_self a' List.mem_cons_self _ _
        (hends l r) (hends l' r') h
      have htails : l = l' ∧ r = r' := by
        cases l with
        | nil =>
          cases l' with
          | nil => exact ⟨rfl,(List.cons.inj hrest).2⟩
          | cons b l' => exact absurd (List.cons.inj hrest).1 hcomma
        | cons b l =>
          cases l' with
          | nil => exact absurd (List.cons.inj hrest).1.symm hcomma
          | cons b' l' =>
            refine ih (fun a ha a' ha' => hinj a (List.mem_cons_of_mem _ ha) a'
              (List.mem_cons_of_mem _ ha')) (fun a ha => hhead a (List.mem_cons_of_mem _ ha))
              (fun a ha => hhead' a (List.mem_cons_of_mem _ ha)) ?_
            exact (List.cons.inj (List.cons.inj hrest).2).2
      exact ⟨by rw [htails.1],htails.2⟩

theorem textItems_eq (items : List TypeTerm) : textItems items = items.map text := by
  induction items with
  | nil => rfl
  | cons s items ih => rw [textItems,ih,List.map_cons]

def fieldText (f : String × TypeTerm) : Rope := f.1.toList ++ ' ' :: '=' :: ' ' :: text f.2

theorem textFields_eq (fields : List (String × TypeTerm)) :
    textFields fields = fields.map fieldText := by
  induction fields with
  | nil => rfl
  | cons f fields ih => rw [textFields,ih,List.map_cons,fieldText]

/-- The first character of a term tells what it is. -/
theorem head_text {s : TypeTerm} (h : Named W s) (rest : Rope) :
    ∃ c, (text s ++ rest).head? = some c ∧
      match s with
      | .word _ | .call _ _ => W.isContinue c = true
      | .array _ => c = '['
      | .object _ => c = '{' := by
  cases h with
  | @word w hw =>
    obtain ⟨c,tail,hw',-,-⟩ := hw.1.1
    exact ⟨c,by simp [text,hw'],hw.1.1.continues c (by simp [hw'])⟩
  | @call f arg hf harg =>
    obtain ⟨c,tail,hf',-,-⟩ := hf.1.1
    exact ⟨c,by simp [text,hf'],hf.1.1.continues c (by simp [hf'])⟩
  | array hitems => exact ⟨'[',rfl,rfl⟩
  | object hkeys hfields => exact ⟨'{',rfl,rfl⟩

theorem head_text_ne {s : TypeTerm} (h : Named W s) {c : Char} (hc : c ∈ wordBreaks)
    (hsquare : c ≠ '[') (hbrace : c ≠ '{') (rest : Rope) : (text s ++ rest).head? ≠ some c := by
  obtain ⟨d,hd,hkind⟩ := head_text h rest
  rw [hd]
  rintro heq
  cases heq
  have hcont := W.continue_breaks c hc
  cases h with
  | word _ => exact absurd hkind (by simp [hcont])
  | call _ _ => exact absurd hkind (by simp [hcont])
  | array _ => exact hsquare hkind
  | object _ _ => exact hbrace hkind

theorem text_call (f : String) (arg : TypeTerm) (r : Rope) :
    text (.call f arg) ++ r = f.toList ++ '(' :: (text arg ++ ')' :: r) := by
  simp [text]

theorem text_array (items : List TypeTerm) (r : Rope) :
    text (.array items) ++ r = '[' :: (comma.intercalate (items.map text) ++ ']' :: r) := by
  simp [text,textItems_eq]

theorem text_object (fields : List (String × TypeTerm)) (r : Rope) :
    text (.object fields) ++ r =
      '{' :: ' ' :: (comma.intercalate (fields.map fieldText) ++ ' ' :: '}' :: r) := by
  simp [text,textFields_eq]

theorem fieldText_append (f : String × TypeTerm) (r : Rope) :
    fieldText f ++ r = f.1.toList ++ ' ' :: '=' :: ' ' :: (text f.2 ++ r) := by
  simp [fieldText]

theorem break_after {c : Char} {r : Rope} (hc : c ∈ wordBreaks) :
    ∀ d, (c :: r).head? = some d → W.isContinue d = false := by
  intro d hd
  cases hd
  exact W.continue_breaks c hc

theorem fieldText_inj {f f' : String × TypeTerm} (hk : W.IsName f.1) (hk' : W.IsName f'.1)
    {r r' : Rope} (hinj : text f.2 ++ r = text f'.2 ++ r' → f.2 = f'.2 ∧ r = r')
    (heq : fieldText f ++ r = fieldText f' ++ r') : f = f' ∧ r = r' := by
  rw [fieldText_append,fieldText_append] at heq
  obtain ⟨hkey,hrest⟩ := word_inj hk.1 hk'.1 (break_after (by simp [wordBreaks]))
    (break_after (by simp [wordBreaks])) heq
  obtain ⟨hvalue,hr⟩ := hinj (List.cons.inj (List.cons.inj (List.cons.inj hrest).2).2).2
  exact ⟨Prod.ext hkey hvalue,hr⟩

theorem fieldText_head_ne {f : String × TypeTerm} (hk : W.IsName f.1) (rest : Rope) :
    (fieldText f ++ rest).head? ≠ some ' ' := by
  obtain ⟨c,tail,hc,hstart,-⟩ := hk.1
  rw [fieldText_append,hc]
  rintro heq
  cases heq
  have hcont := W.continue_start _ hstart
  rw [W.continue_breaks ' ' (by simp [wordBreaks])] at hcont
  cases hcont

/-- Texts that agree are of lists both, of objects both, or of neither. -/
def SameShape : TypeTerm → TypeTerm → Prop
  | .array _, .array _ | .object _, .object _ => True
  | .word _, .word _ | .word _, .call _ _ | .call _ _, .word _ | .call _ _, .call _ _ => True
  | _, _ => False

theorem sameShape_of_text {s s' : TypeTerm} (h : Named W s) (h' : Named W s') {r r' : Rope}
    (heq : text s ++ r = text s' ++ r') : SameShape s s' := by
  obtain ⟨c,hc,hkind⟩ := head_text h r
  obtain ⟨c',hc',hkind'⟩ := head_text h' r'
  rw [heq,hc'] at hc
  cases hc
  have hsquare := W.continue_breaks '[' (by simp [wordBreaks])
  have hbrace := W.continue_breaks '{' (by simp [wordBreaks])
  cases s <;> cases s' <;> simp_all [SameShape]

/-- No two terms are written alike, whatever comes after. -/
theorem text_inj {s s' : TypeTerm} (h : Named W s) (h' : Named W s') {r r' : Rope}
    (hr : Ends W r) (hr' : Ends W r') (heq : text s ++ r = text s' ++ r') :
    s = s' ∧ r = r' := by
  have hparen : ')' ∈ wordBreaks ∧ ']' ∈ wordBreaks ∧ ' ' ∈ wordBreaks := by simp [wordBreaks]
  induction s generalizing s' r r' with
  | word w =>
    have hshape := sameShape_of_text h h' heq
    cases h with | word hw =>
    cases h' with
    | word hw' =>
      obtain ⟨rfl,hrest⟩ := word_inj hw.1.1 hw'.1.1 (fun c hc => (hr c hc).1)
        (fun c hc => (hr' c hc).1) heq
      exact ⟨rfl,hrest⟩
    | call hf' harg' =>
      rw [text_call] at heq
      obtain ⟨-,hrest⟩ := word_inj hw.1.1 hf'.1.1 (fun c hc => (hr c hc).1)
        (break_after (by simp [wordBreaks])) heq
      exact absurd rfl (hr '(' (by rw [hrest]; rfl)).2
    | array _ => exact hshape.elim
    | object _ _ => exact hshape.elim
  | call f arg ih =>
    have hshape := sameShape_of_text h h' heq
    cases h with | call hf harg =>
    rw [text_call] at heq
    cases h' with
    | word hw' =>
      obtain ⟨-,hrest⟩ := word_inj hf.1.1 hw'.1.1 (break_after (by simp [wordBreaks]))
        (fun c hc => (hr' c hc).1) heq
      exact absurd rfl ( hr' '(' (by rw [← hrest]; rfl)).2
    | call hf' harg' =>
      rw [text_call] at heq
      obtain ⟨rfl,hrest⟩ := word_inj hf.1.1 hf'.1.1 (break_after (by simp [wordBreaks]))
        (break_after (by simp [wordBreaks])) heq
      obtain ⟨rfl,hclosed⟩ := ih harg harg' (ends_cons r hparen.1 (by decide))
        (ends_cons r' hparen.1 (by decide)) (List.cons.inj hrest).2
      exact ⟨rfl,(List.cons.inj hclosed).2⟩
    | array _ => exact hshape.elim
    | object _ _ => exact hshape.elim
  | array items ih =>
    have hshape := sameShape_of_text h h' heq
    cases h with | array hitems =>
    cases h' with
    | word _ => exact hshape.elim
    | call _ _ => exact hshape.elim
    | @array items' hitems' =>
      rw [text_array,text_array] at heq
      have hhead : ∀ {items : List TypeTerm}, (∀ s ∈ items, Named W s) → ∀ a ∈ items,
          ∀ rest, (text a ++ rest).head? ≠ some ']' := fun hitems a ha rest =>
        head_text_ne (hitems a ha) hparen.2.1 (by decide) (by decide) rest
      obtain ⟨rfl,hrest⟩ := separated_inj (W := W) hparen.2.1 (by decide) (by decide)
        (fun a ha a' ha' r r' hr hr' => ih a ha (hitems a ha) (hitems' a' ha') hr hr')
        (hhead hitems) (hhead hitems') (List.cons.inj heq).2
      exact ⟨rfl,hrest⟩
    | object _ _ => exact hshape.elim
  | object fields ih =>
    have hshape := sameShape_of_text h h' heq
    cases h with | object hkeys hfields =>
    cases h' with
    | word _ => exact hshape.elim
    | call _ _ => exact hshape.elim
    | array _ => exact hshape.elim
    | @object fields' hkeys' hfields' =>
      rw [text_object,text_object] at heq
      obtain ⟨rfl,hrest⟩ := separated_inj (W := W) hparen.2.2 (by decide) (by decide)
        (fun f hf f' hf' r r' hr hr' => fieldText_inj (hkeys f hf) (hkeys' f' hf')
          (ih f hf (hfields f hf) (hfields' f' hf') hr hr'))
        (fun f hf => fieldText_head_ne (hkeys f hf))
        (fun f hf => fieldText_head_ne (hkeys' f hf)) (List.cons.inj (List.cons.inj heq).2).2
      exact ⟨rfl,(List.cons.inj hrest).2⟩

end distinct

end TypeTerm

/-! The keys of the objects that arguments, items and fields lead to. -/
namespace Expression

mutual

def keys : Expression → List ObjectKey
  | .funcCall _ _ args => keysItems args
  | .array items => keysItems items
  | .object entries => keysEntries entries
  | _ => []

def keysItems : List Expression → List ObjectKey
  | [] => []
  | e :: items => keys e ++ keysItems items

def keysEntries : List (ObjectKey × Expression) → List ObjectKey
  | [] => []
  | (k,e) :: entries => k :: (keys e ++ keysEntries entries)

end

end Expression

/-- The name of a key that is written without quotes. -/
def ObjectKey.bare : ObjectKey → Option String
  | .ident w | .expression (.variable w) => some w
  | _ => none

/-- The text of a key that is written in quotes. -/
def ObjectKey.quoted : ObjectKey → Option String
  | .expression (.string w) => some w
  | _ => none

/-- The characters of a text that need a backslash in quotes. -/
def marked (text : Rope) : ℕ := text.count '"' + text.count '\\'

/-- A reader of expressions. Terms are read as what they stand for, except that an object
cannot begin with `for`. A bare key is an identifier and no literal; a key in quotes
stands in the text in its quotes, with a backslash for each character that needs one. -/
structure HclReader where
  chars : WordChars
  read : Rope → Option Expression
  read_text : ∀ s, TypeTerm.Named chars s → TypeTerm.ForFree s → read s.text = some s.expr
  read_for : ∀ s, TypeTerm.Named chars s → ¬TypeTerm.ForFree s → read s.text = none
  bare_key : ∀ text e, read text = some e → ∀ k ∈ e.keys, ∀ w, k.bare = some w → chars.IsName w
  quoted_key : ∀ text e, read text = some e → ∀ k ∈ e.keys, k.quoted ≠ none → '"' ∈ text
  escapes : ∀ text e, read text = some e →
    ((e.keys.filterMap ObjectKey.quoted).map fun w => marked w.toList).sum ≤ text.count '\\'

section terms

open TypeTerm

variable {W : WordChars}

theorem keysItems_exprItems {items : List TypeTerm} {k : ObjectKey}
    (h : k ∈ Expression.keysItems (exprItems items)) : ∃ s ∈ items, k ∈ s.expr.keys := by
  induction items with
  | nil => simp [exprItems,Expression.keysItems] at h
  | cons s items ih =>
    rw [exprItems,Expression.keysItems,List.mem_append] at h
    rcases h with h | h
    · exact ⟨s,List.mem_cons_self,h⟩
    · obtain ⟨s',hs',hk⟩ := ih h
      exact ⟨s',List.mem_cons_of_mem s hs',hk⟩

theorem keysEntries_exprFields {fields : List (String × TypeTerm)} {k : ObjectKey}
    (h : k ∈ Expression.keysEntries (exprFields fields)) :
    ∃ f ∈ fields, k = .ident f.1 ∨ k ∈ f.2.expr.keys := by
  induction fields with
  | nil => simp [exprFields,Expression.keysEntries] at h
  | cons f fields ih =>
    rw [exprFields,Expression.keysEntries,List.mem_cons,List.mem_append] at h
    rcases h with h | h | h
    · exact ⟨f,List.mem_cons_self,.inl h⟩
    · exact ⟨f,List.mem_cons_self,.inr h⟩
    · obtain ⟨f',hf',hk⟩ := ih h
      exact ⟨f',List.mem_cons_of_mem f hf',hk⟩

theorem keys_expr {s : TypeTerm} (h : Named W s) {k : ObjectKey} (hk : k ∈ s.expr.keys) :
    ∃ w, k = .ident w ∧ W.IsName w := by
  induction h with
  | word _ => simp [expr,Expression.keys] at hk
  | call _ _ ih =>
    refine ih ?_
    simpa [expr,Expression.keys,Expression.keysItems] using hk
  | array _ ih =>
    obtain ⟨s,hs,hk⟩ := keysItems_exprItems (by simpa [expr,Expression.keys] using hk)
    exact ih s hs hk
  | object hkeys _ ih =>
    obtain ⟨f,hf,rfl | hk⟩ := keysEntries_exprFields (by simpa [expr,Expression.keys] using hk)
    · exact ⟨f.1,rfl,hkeys f hf⟩
    · exact ih f hf hk

open Classical in
/-- The reader that accepts terms only. -/
noncomputable def termReader (W : WordChars) (text : Rope) : Option Expression :=
  if h : ∃ s, Named W s ∧ ForFree s ∧ s.text = text then some h.choose.expr else none

theorem termReader_text {s : TypeTerm} (h : Named W s) (hfor : ForFree s) :
    termReader W s.text = some s.expr := by
  have hex : ∃ s', Named W s' ∧ ForFree s' ∧ s'.text = s.text := ⟨s,h,hfor,rfl⟩
  obtain ⟨hnamed,-,htext⟩ := hex.choose_spec
  have hsame := (text_inj hnamed h ends_nil ends_nil (by rw [htext])).1
  rw [termReader,dif_pos hex,hsame]

theorem termReader_eq_some {text : Rope} {e : Expression} (h : termReader W text = some e) :
    ∃ s, Named W s ∧ ForFree s ∧ s.text = text ∧ s.expr = e := by
  unfold termReader at h
  split_ifs at h with hex
  obtain ⟨hnamed,hfor,htext⟩ := hex.choose_spec
  exact ⟨_,hnamed,hfor,htext,Option.some.inj h⟩

noncomputable def HclReader.ofTerms (W : WordChars) : HclReader where
  chars := W
  read := termReader W
  read_text _ := termReader_text
  read_for s h hfor := by
    by_contra hsome
    obtain ⟨e,he⟩ := Option.ne_none_iff_exists'.mp hsome
    obtain ⟨s',h',hfor',htext,-⟩ := termReader_eq_some he
    exact hfor ((text_inj h' h ends_nil ends_nil (by rw [htext])).1 ▸ hfor')
  bare_key text e he k hk w hw := by
    obtain ⟨s,h,-,-,rfl⟩ := termReader_eq_some he
    obtain ⟨w',rfl,hname⟩ := keys_expr h hk
    cases hw
    exact hname
  quoted_key text e he k hk hquoted := by
    obtain ⟨s,h,-,-,rfl⟩ := termReader_eq_some he
    obtain ⟨w',rfl,-⟩ := keys_expr h hk
    exact absurd rfl hquoted
  escapes text e he := by
    obtain ⟨s,h,-,-,rfl⟩ := termReader_eq_some he
    have hnone : s.expr.keys.filterMap ObjectKey.quoted = [] := by
      rw [List.filterMap_eq_nil_iff]
      intro k hk
      obtain ⟨w',rfl,-⟩ := keys_expr h hk
      rfl
    rw [hnone]
    exact Nat.zero_le _

/-- The characters of identifiers in ASCII. -/
def WordChars.ascii : WordChars where
  isStart c := c.isAlpha || c == '_'
  isContinue c := c.isAlphanum || c == '_' || c == '-'
  start_alpha c hc := by simp [hc]
  continue_start c hc := by
    rw [Bool.or_eq_true] at hc ⊢
    rw [Bool.or_eq_true]
    rcases hc with hc | hc
    · exact .inl (.inl (by simp [Char.isAlphanum,hc]))
    · exact .inl (.inr hc)
  continue_breaks c hc := by
    have hall : wordBreaks.all (fun c => !(c.isAlphanum || c == '_' || c == '-')) = true := by
      decide
    simpa using List.all_eq_true.mp hall c hc

end terms

end TerraformLs
