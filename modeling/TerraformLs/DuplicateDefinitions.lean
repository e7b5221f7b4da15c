import TerraformLs.FirstReports
import TerraformLs.KeyedMap
import TerraformLs.MetaArguments
import TerraformLs.SpannedTree

/-! The rule about addresses that a file declares twice. It compares texts that are put together
from the parts of an address. -/
namespace TerraformLs
namespace DuplicateDefinitions

open FirstReports Rope

/-! ### The rule -/

inductive Label
  | name (s : String)
  | typed (ty name : String)
  deriving DecidableEq

def Label.text : Label → String
  | .name s => s
  | .typed ty s => ty ++ "." ++ s

structure Definition where
  kind : String
  label : Label
  range : Range

def Definition.address (d : Definition) : String × Label := (d.kind,d.label)

def Definition.key (d : Definition) : String := d.kind ++ ":" ++ d.label.text

def singleLabel (rope : Rope) : List Spanned.BlockLabel → Option (String × Range)
  | [] => none
  | label :: _ => (hclSpanToLspRange rope label.span).toOption.map fun range => (label.text,range)

def twoLabels (rope : Rope) : List Spanned.BlockLabel → Option (String × String × Range)
  | ty :: name :: _ =>
    (hclSpanToLspRange rope name.span).toOption.map fun range => (ty.text,name.text,range)
  | _ => none

def localDefinition (rope : Rope) : Spanned.Structure → Option Definition
  | .attribute keySpan key _ =>
    (hclSpanToLspRange rope keySpan).toOption.map fun range => ⟨"local",.name key,range⟩
  | .block _ _ _ _ => none

def definitionsOf (rope : Rope) : Spanned.Structure → List Definition
  | .attribute _ _ _ => []
  | .block _ ident labels body =>
    if ident = "variable" ∨ ident = "output" ∨ ident = "module" then
      (singleLabel rope labels).toList.map fun l => ⟨ident,.name l.1,l.2⟩
    else if ident = "resource" ∨ ident = "data" then
      (twoLabels rope labels).toList.map fun l => ⟨ident,.typed l.1 l.2.1,l.2.2⟩
    else if ident = "locals" then body.filterMap (localDefinition rope)
    else []

def definitions (body : Spanned.Body) (rope : Rope) : List Definition := body.flatMap (definitionsOf rope)

def message (d : Definition) (first : Range) : String :=
  "duplicate " ++ d.kind ++ " `" ++ d.label.text ++ "` — already defined on line " ++
    toString (first.start.line + 1)

def duplicate (d : Definition) (first : Range) : Diagnostic := Scopes.report d.range .error (message d first)

/-- The ranges of the first definitions, and what is reported. -/
def record (walk : KeyedMap String Range × List Diagnostic) (d : Definition) :
    KeyedMap String Range × List Diagnostic :=
  match walk.1.lookup d.key with
  | some first => (walk.1,walk.2 ++ [duplicate d first])
  | none => (walk.1.insert d.key d.range,walk.2)

def duplicateDefinitionDiagnostics (body : Spanned.Body) (rope : Rope) : List Diagnostic :=
  ((definitions body rope).foldl record (∅,[])).2

/-! ### What it reports -/

section reports

variable {before ds : List Definition} {seen : KeyedMap String Range} {out : List Diagnostic}
  {body : Spanned.Body} {rope : Rope} {d e : Definition}

/-- A repetition along with the first definition. -/
def repetition (r : Definition × Definition) : Diagnostic := duplicate r.1 r.2.range

theorem record_run
    (hseen : ∀ k, seen.lookup k = (before.find? fun d => d.key = k).map Definition.range) :
    (ds.foldl record (seen,out)).2 = out ++ (repeatsFrom Definition.key before ds).map repetition := by
  induction ds generalizing seen out before with
  | nil => rw [repeatsFrom,List.map_nil,List.append_nil,List.foldl_nil]
  | cons d ds ih =>
    rw [List.foldl_cons,repeatsFrom,record,hseen]
    cases hfind : before.find? fun e => e.key = d.key with
    | none =>
      refine ih fun k => ?_
      rw [KeyedMap.lookup_insert_of,List.find?_append,hseen]
      by_cases hk : k = d.key
      · subst hk
        rw [if_pos rfl,hfind]
        simp
      · have hne : ¬d.key = k := fun h => hk h.symm
        rw [if_neg hk]
        simp [hne]
    | some first =>
      have hwalk : ∀ k, seen.lookup k =
          ((before ++ [d]).find? fun e => e.key = k).map Definition.range := by
        intro k
        rw [hseen,List.find?_append]
        by_cases hk : d.key = k
        · subst hk
          rw [hfind]
          rfl
        · simp [hk]
      dsimp only [Option.map_some]
      rw [ih hwalk,List.append_assoc]
      rfl

theorem duplicateDefinitionDiagnostics_eq : duplicateDefinitionDiagnostics body rope =
    (repeatsFrom Definition.key [] (definitions body rope)).map repetition := by
  have hstart : ∀ k, (∅ : KeyedMap String Range).lookup k =
      (([] : List Definition).find? fun d => d.key = k).map Definition.range := fun _ => rfl
  rw [duplicateDefinitionDiagnostics,record_run hstart,List.nil_append]

/-! ### Addresses -/

/-- The blocks that declare an address by one label, those that do by two, and locals. -/
def Definition.Declared (d : Definition) : Prop :=
  ((d.kind = "variable" ∨ d.kind = "output" ∨ d.kind = "module" ∨ d.kind = "local") ∧
      ∃ s, d.label = .name s) ∨
    ((d.kind = "resource" ∨ d.kind = "data") ∧ ∃ ty name, d.label = .typed ty name)

theorem declared_of_mem (h : d ∈ definitions body rope) : d.Declared := by
  rw [definitions,List.mem_flatMap] at h
  obtain ⟨s,-,hd⟩ := h
  rcases s with _ | ⟨span,ident,labels,body⟩
  · cases hd
  · rw [definitionsOf] at hd
    split_ifs at hd with hone htwo hlocals
    · obtain ⟨l,-,rfl⟩ := List.mem_map.mp hd
      exact .inl ⟨by tauto,l.1,rfl⟩
    · obtain ⟨l,-,rfl⟩ := List.mem_map.mp hd
      exact .inr ⟨htwo,l.1,l.2.1,rfl⟩
    · obtain ⟨s,-,hs⟩ := List.mem_filterMap.mp hd
      rcases s with ⟨keySpan,key,value⟩ | _
      · obtain ⟨range,-,rfl⟩ := Option.map_eq_some_iff.mp hs
        exact .inl ⟨by simp,key,rfl⟩
      · cases hs
    · cases hd

theorem append_cons_inj {α : Type} {x : α} : ∀ {a b s t : List α}, x ∉ a → x ∉ b →
    a ++ x :: s = b ++ x :: t → a = b ∧ s = t
  | [], [], s, t, _, _, h => ⟨rfl,(List.cons.inj h).2⟩
  | [], c :: b, s, t, _, hb, h => absurd (List.cons.inj h).1 fun hc => hb (hc ▸ List.mem_cons_self)
  | c :: a, [], s, t, ha, _, h => absurd (List.cons.inj h).1 fun hc => ha (hc ▸ List.mem_cons_self)
  | c :: a, d :: b, s, t, ha, hb, h => by
    obtain ⟨hhead,htail⟩ := List.cons.inj h
    obtain ⟨hab,hst⟩ := append_cons_inj (fun hx => ha (List.mem_cons_of_mem c hx))
      (fun hx => hb (List.mem_cons_of_mem d hx)) htail
    exact ⟨by rw [hhead,hab],hst⟩

/-- Texts with a sign between their parts, which the first part has not. -/
theorem parts_of_append {a b s t x : String} {c : Char} (hx : x.toList = [c]) (ha : c ∉ a.toList)
    (hb : c ∉ b.toList) (h : a ++ x ++ s = b ++ x ++ t) : a = b ∧ s = t := by
  have hlist := congrArg String.toList h
  rw [String.toList_append,String.toList_append,String.toList_append,String.toList_append,hx,
    List.append_assoc,List.append_assoc] at hlist
  obtain ⟨hab,hst⟩ := append_cons_inj ha hb hlist
  exact ⟨String.toList_injective hab,String.toList_injective hst⟩

theorem kind_of_declared (h : d.Declared) : ':' ∉ d.kind.toList := by
  rcases h with ⟨h | h | h | h,-⟩ | ⟨h | h,-⟩ <;> rw [h] <;> decide

/-- Two kinds of definitions never share a key. -/
theorem key_eq_iff (hd : d.Declared) (he : e.Declared) :
    d.key = e.key ↔ d.kind = e.kind ∧ d.label.text = e.label.text := by
  constructor
  · exact parts_of_append rfl (kind_of_declared hd) (kind_of_declared he)
  · rintro ⟨hkind,htext⟩
    rw [Definition.key,Definition.key,hkind,htext]

/-- No type of a resource or of a data source has a dot. -/
def Undotted (ds : List Definition) : Prop :=
  ∀ d ∈ ds, ∀ ty name, d.label = .typed ty name → '.' ∉ ty.toList

theorem label_of_text (hd : d.Declared) (he : e.Declared) (hkind : d.kind = e.kind)
    (htext : d.label.text = e.label.text)
    (hdots : ∀ ty name, d.label = .typed ty name → '.' ∉ ty.toList)
    (hdots' : ∀ ty name, e.label = .typed ty name → '.' ∉ ty.toList) : d.label = e.label := by
  rcases hd with ⟨hd,s,hs⟩ | ⟨hd,ty,name,hs⟩ <;> rcases he with ⟨he,s',hs'⟩ | ⟨he,ty',name',hs'⟩
  · rw [hs,hs'] at htext ⊢
    have hname : s = s' := htext
    rw [hname]
  · rw [← hkind] at he
    rcases hd with h | h | h | h <;> rw [h] at he <;> simp at he
  · rw [hkind] at hd
    rcases he with h | h | h | h <;> rw [h] at hd <;> simp at hd
  · have hty := hdots ty name hs
    have hty' := hdots' ty' name' hs'
    rw [hs,hs'] at htext ⊢
    obtain ⟨rfl,rfl⟩ := parts_of_append rfl hty hty' htext
    rfl

theorem key_of_address {d e : Definition} (h : d.address = e.address) : d.key = e.key := by
  obtain ⟨hkind,hlabel⟩ := Prod.mk.inj h
  rw [Definition.key,Definition.key,hkind,hlabel]

/-- The rule goes by addresses exactly if no two of them read alike. -/
theorem reports_addresses_iff : duplicateDefinitionDiagnostics body rope =
      (repeatsFrom Definition.address [] (definitions body rope)).map repetition ↔
    ∀ d ∈ definitions body rope, ∀ e ∈ definitions body rope,
      d.kind = e.kind → d.label.text = e.label.text → d.label = e.label := by
  rw [duplicateDefinitionDiagnostics_eq,repeatsFrom_map_eq_iff fun _ _ => key_of_address]
  constructor
  · intro h d hd e he hkind htext
    have hkey := (key_eq_iff (declared_of_mem hd) (declared_of_mem he)).mpr ⟨hkind,htext⟩
    exact (Prod.mk.inj (h d hd e he hkey)).2
  · intro h d hd e he hkey
    obtain ⟨hkind,htext⟩ := (key_eq_iff (declared_of_mem hd) (declared_of_mem he)).mp hkey
    exact Prod.ext hkind (h d hd e he hkind htext)

/-- The reports are those of the addresses that are declared again, each with the line of the first
definition, exactly if no two addresses of the file read alike when their labels are joined. They are
where no type has a dot. -/
theorem duplicateDefinitionDiagnostics_exact (body : Spanned.Body) (rope : Rope) :
    (duplicateDefinitionDiagnostics body rope =
        (repeatsFrom Definition.address [] (definitions body rope)).map repetition ↔
      ∀ d ∈ definitions body rope, ∀ e ∈ definitions body rope,
        d.kind = e.kind → d.label.text = e.label.text → d.label = e.label) ∧
    (Undotted (definitions body rope) → duplicateDefinitionDiagnostics body rope =
      (repeatsFrom Definition.address [] (definitions body rope)).map repetition) := by
  refine ⟨reports_addresses_iff,fun hdots => reports_addresses_iff.mpr fun d hd e he hkind htext => ?_⟩
  exact label_of_text (declared_of_mem hd) (declared_of_mem he) hkind htext (hdots d hd) (hdots e he)

end reports

end DuplicateDefinitions
end TerraformLs
