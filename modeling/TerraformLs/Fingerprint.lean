import Mathlib.Data.List.Sort
import Mathlib.Data.String.Basic
import TerraformLs.StateStore

/-! The fingerprint of what a document shows to the other files of its module. -/
namespace TerraformLs

/-- The hash of the tokens, and the raw texts of the `terraform` blocks at the
spans the parser gave them. -/
structure Fingerprinter where
  hash : List String → ℕ
  terraformTexts : DocumentState → List String

def referenceToken : ReferenceKind → String
  | .variable name => "ref:var." ++ name
  | .local name => "ref:local." ++ name
  | .module name => "ref:module." ++ name
  | .resource resourceType name => "ref:" ++ resourceType ++ "." ++ name
  | .dataSource resourceType name => "ref:data." ++ resourceType ++ "." ++ name

def addressToken (start : String) (addr : ResourceAddress) : String :=
  start ++ addr.resourceType ++ "." ++ addr.name

def crossFileTokens (F : Fingerprinter) (doc : DocumentState) : List String :=
  doc.symbols.variables.keys.map ("v:" ++ ·) ++ doc.symbols.locals.keys.map ("l:" ++ ·) ++
    doc.symbols.outputs.keys.map ("o:" ++ ·) ++ doc.symbols.modules.keys.map ("m:" ++ ·) ++
    doc.symbols.resources.keys.map (addressToken "r:") ++
    doc.symbols.dataSources.keys.map (addressToken "d:") ++
    (doc.references.map fun r => referenceToken r.kind) ++
    (F.terraformTexts doc).map ("tf:" ++ ·)

def crossFileFingerprint (F : Fingerprinter) (doc : DocumentState) : ℕ :=
  F.hash ((crossFileTokens F doc).insertionSort (· ≤ ·))

/-- Without collisions equal fingerprints come from the same tokens, up to their order. -/
theorem perm_of_fingerprint {F : Fingerprinter} (hinj : F.hash.Injective) {doc doc' : DocumentState}
    (h : crossFileFingerprint F doc' = crossFileFingerprint F doc) :
    (crossFileTokens F doc').Perm (crossFileTokens F doc) := by
  have hsorted := hinj h
  have hdoc' := List.perm_insertionSort (· ≤ ·) (crossFileTokens F doc')
  rw [hsorted] at hdoc'
  exact hdoc'.symm.trans (List.perm_insertionSort _ _)

section references

/-- What a path of names refers to, from its first name and those that follow. -/
def classifyTraversal (base : String) (segments : List String) : Option ReferenceKind :=
  match base,segments with
  | "var",name::_ => some (.variable name)
  | "local",name::_ => some (.local name)
  | "module",name::_ => some (.module name)
  | "data",resourceType::name::_ => some (.dataSource resourceType name)
  | resourceType,name::_ =>
    if resourceType ∉ ["var","local","module","data","path","terraform","each","count","self"] ∧
        '_' ∈ resourceType.toList then some (.resource resourceType name)
    else none
  | _,[] => none

/-- A reference as the extractors find it: a path of identifiers. -/
def ReferenceKind.Extracted (kind : ReferenceKind) : Prop :=
  ∃ base segments, '.' ∉ base.toList ∧ classifyTraversal base segments = some kind

def ReferenceKind.base : ReferenceKind → String
  | .variable _ => "var"
  | .local _ => "local"
  | .module _ => "module"
  | .resource resourceType _ => resourceType
  | .dataSource _ _ => "data"

def ReferenceKind.rest : ReferenceKind → String
  | .variable name | .local name | .module name | .resource _ name => name
  | .dataSource resourceType name => resourceType ++ "." ++ name

theorem referenceToken_eq (kind : ReferenceKind) :
    referenceToken kind = "ref:" ++ kind.base ++ "." ++ kind.rest := by
  cases kind with
  | «variable» | «local» | «module» | resource => rfl
  | dataSource resourceType name =>
    simp only [referenceToken,ReferenceKind.base,ReferenceKind.rest,String.append_assoc]
    rfl

/-- The first name of a path is that of its kind; a resource type is none of the others. -/
theorem extracted_base {kind : ReferenceKind} (h : kind.Extracted) :
    '.' ∉ kind.base.toList ∧
      ∀ t n, kind = .resource t n → t ∉ ["var","local","module","data"] := by
  obtain ⟨base,segments,hdot,hkind⟩ := h
  unfold classifyTraversal at hkind
  split at hkind
  · cases hkind
    simp [ReferenceKind.base]
  · cases hkind
    simp [ReferenceKind.base]
  · cases hkind
    simp [ReferenceKind.base]
  · cases hkind
    simp [ReferenceKind.base]
  · split at hkind
    · rename_i hmem
      cases hkind
      refine ⟨hdot,?_⟩
      intro t n heq
      cases heq
      intro hin
      apply hmem.1
      simp only [List.mem_cons,List.not_mem_nil,or_false] at hin ⊢
      tauto
    · cases hkind
  · cases hkind

/-- Texts without a dot before the first dot are told apart. -/
theorem split_at_dot {a b c d : String} (ha : '.' ∉ a.toList) (hb : '.' ∉ b.toList)
    (h : a ++ "." ++ c = b ++ "." ++ d) : a = b ∧ c = d := by
  have hlist : a.toList ++ '.' :: c.toList = b.toList ++ '.' :: d.toList := by
    have htoList := congrArg String.toList h
    simpa [String.toList_append] using htoList
  have hparts : a.toList = b.toList ∧ c.toList = d.toList := by
    generalize a.toList = as at ha hlist
    generalize b.toList = bs at hb hlist
    induction as generalizing bs with
    | nil =>
      cases bs with
      | nil => exact ⟨rfl,(List.cons.inj hlist).2⟩
      | cons y bs => exact absurd ((List.cons.inj hlist).1 ▸ List.mem_cons_self) hb
    | cons x as ih =>
      cases bs with
      | nil => exact absurd ((List.cons.inj hlist).1.symm ▸ List.mem_cons_self) ha
      | cons y bs =>
        obtain ⟨hxy,htail⟩ := List.cons.inj hlist
        have htails := ih (fun hx => ha (by simp [hx])) bs (fun hy => hb (by simp [hy])) htail
        exact ⟨by rw [hxy,htails.1],htails.2⟩
  exact ⟨String.toList_inj.mp hparts.1,String.toList_inj.mp hparts.2⟩

/-- References with the same token are filed under the same key. -/
theorem referenceKey_of_token {kind kind' : ReferenceKind} (h : kind.Extracted)
    (h' : kind'.Extracted) (htoken : referenceToken kind = referenceToken kind') :
    referenceKey kind = referenceKey kind' := by
  obtain ⟨hdot,hresource⟩ := extracted_base h
  obtain ⟨hdot',hresource'⟩ := extracted_base h'
  rw [referenceToken_eq,referenceToken_eq] at htoken
  have hlist : kind.base ++ "." ++ kind.rest = kind'.base ++ "." ++ kind'.rest := by
    have htoList := congrArg String.toList htoken
    simp only [String.toList_append,List.append_assoc,List.append_cancel_left_eq] at htoList
    apply String.toList_inj.mp
    simpa only [String.toList_append,List.append_assoc] using htoList
  obtain ⟨hbase,hrest⟩ := split_at_dot hdot hdot' hlist
  cases kind <;> cases kind' <;>
    simp_all [ReferenceKind.base,ReferenceKind.rest,referenceKey,SymbolKey.resource]

end references

section tokens

variable (F : Fingerprinter) {doc doc' : DocumentState}

def kindMark : SymbolKind → Char
  | .variable => 'v'
  | .local => 'l'
  | .output => 'o'
  | .resource => 'r'
  | .dataSource => 'd'
  | .module => 'm'
  | .provider => 'p'
  | .terraformBlock => 't'

/-- The token of a definition, from the key it is filed under. -/
def definitionToken (key : SymbolKey) : String :=
  String.ofList [kindMark key.kind,':'] ++ key.name

theorem definitionToken_toList (key : SymbolKey) :
    (definitionToken key).toList = kindMark key.kind :: ':' :: key.name.toList := by
  simp [definitionToken]

theorem definitionToken_injective : Function.Injective definitionToken := by
  intro key key' h
  have hlist := congrArg String.toList h
  rw [definitionToken_toList,definitionToken_toList] at hlist
  obtain ⟨hmark,hname⟩ := List.cons.inj hlist
  have hkind : key.kind = key'.kind := by
    cases hk : key.kind <;> cases hk' : key'.kind <;> simp_all [kindMark]
  have hname' : key.name = key'.name := String.toList_inj.mp (List.cons.inj hname).2
  cases key
  cases key'
  simp_all

/-- The second character tells the tokens of definitions from the others. -/
theorem definitionToken_second (key : SymbolKey) :
    (definitionToken key).toList[1]? = some ':' := by
  rw [definitionToken_toList]
  rfl

theorem referenceToken_second (kind : ReferenceKind) :
    (referenceToken kind).toList[1]? = some 'e' := by
  rw [referenceToken_eq]
  simp

theorem terraformToken_second (text : String) : ("tf:" ++ text).toList[1]? = some 'f' := by
  simp

theorem crossFileTokens_eq (doc : DocumentState) : crossFileTokens F doc =
    (collectDocKeys doc).definitions.map definitionToken ++
      (doc.references.map fun r => referenceToken r.kind) ++
        (F.terraformTexts doc).map ("tf:" ++ ·) := by
  have hplain : ∀ kind, (definitionToken ∘ SymbolKey.mk kind) =
      fun name => String.ofList [kindMark kind,':'] ++ name := fun kind => rfl
  have haddress : ∀ kind, definitionToken ∘ SymbolTable.addressKey kind =
      addressToken (String.ofList [kindMark kind,':']) := by
    intro kind
    funext addr
    simp only [Function.comp_apply,definitionToken,SymbolTable.addressKey,SymbolKey.resource,
      addressToken,String.append_assoc]
  simp only [crossFileTokens,collectDocKeys,List.map_append,List.map_map,hplain,haddress]
  rfl

variable {F}

/-- The tokens show which keys a document defines. -/
theorem mem_definitions_iff (key : SymbolKey) :
    definitionToken key ∈ crossFileTokens F doc ↔ key ∈ (collectDocKeys doc).definitions := by
  rw [crossFileTokens_eq,List.mem_append,List.mem_append,
    List.mem_map_of_injective definitionToken_injective]
  have hreference : definitionToken key ∉ doc.references.map fun r => referenceToken r.kind := by
    intro h
    obtain ⟨r,-,hr⟩ := List.mem_map.mp h
    have hsecond := definitionToken_second key
    rw [← hr,referenceToken_second] at hsecond
    cases hsecond
  have hterraform : definitionToken key ∉ (F.terraformTexts doc).map ("tf:" ++ ·) := by
    intro h
    obtain ⟨text,-,ht⟩ := List.mem_map.mp h
    have hsecond := definitionToken_second key
    rw [← ht,terraformToken_second] at hsecond
    cases hsecond
  simp only [hreference,hterraform,or_false]

/-- The tokens show which keys a document refers to. -/
theorem mem_references_iff (hdoc : ∀ r ∈ doc.references, r.kind.Extracted) {kind : ReferenceKind}
    (hkind : kind.Extracted) (h : referenceToken kind ∈ crossFileTokens F doc) :
    referenceKey kind ∈ (collectDocKeys doc).references := by
  rw [crossFileTokens_eq,List.mem_append,List.mem_append] at h
  rcases h with (h | h) | h
  · obtain ⟨key,-,hkey⟩ := List.mem_map.mp h
    have hsecond := referenceToken_second kind
    rw [← hkey,definitionToken_second] at hsecond
    cases hsecond
  · obtain ⟨r,hr,htoken⟩ := List.mem_map.mp h
    have hkey := referenceKey_of_token (hdoc r hr) hkind htoken
    exact List.mem_map.mpr ⟨r,hr,hkey⟩
  · obtain ⟨text,-,ht⟩ := List.mem_map.mp h
    have hsecond := referenceToken_second kind
    rw [← ht,terraformToken_second] at hsecond
    cases hsecond

/-- Documents with the same tokens define the same keys. -/
theorem definitions_of_perm (h : (crossFileTokens F doc').Perm (crossFileTokens F doc))
    (key : SymbolKey) :
    key ∈ (collectDocKeys doc').definitions ↔ key ∈ (collectDocKeys doc).definitions := by
  rw [← mem_definitions_iff key,← mem_definitions_iff key]
  exact h.mem_iff

theorem references_of_subset (h : (crossFileTokens F doc').Subset (crossFileTokens F doc))
    (hdoc : ∀ r ∈ doc.references, r.kind.Extracted) (hdoc' : ∀ r ∈ doc'.references, r.kind.Extracted)
    {key : SymbolKey} (hkey : key ∈ (collectDocKeys doc').references) :
    key ∈ (collectDocKeys doc).references := by
  obtain ⟨r,hr,rfl⟩ := List.mem_map.mp hkey
  have htoken : referenceToken r.kind ∈ crossFileTokens F doc' := by
    rw [crossFileTokens_eq]
    apply List.mem_append_left
    exact List.mem_append_right _ (List.mem_map.mpr ⟨r,hr,rfl⟩)
  exact mem_references_iff hdoc (hdoc' r hr) (h htoken)

/-- Documents with the same tokens refer to the same keys. -/
theorem references_of_perm (h : (crossFileTokens F doc').Perm (crossFileTokens F doc))
    (hdoc : ∀ r ∈ doc.references, r.kind.Extracted) (hdoc' : ∀ r ∈ doc'.references, r.kind.Extracted)
    (key : SymbolKey) :
    key ∈ (collectDocKeys doc').references ↔ key ∈ (collectDocKeys doc).references :=
  ⟨references_of_subset h.subset hdoc hdoc',references_of_subset h.symm.subset hdoc' hdoc⟩

theorem terraformTexts_of_subset (h : (crossFileTokens F doc').Subset (crossFileTokens F doc))
    (hne : F.terraformTexts doc' ≠ []) : F.terraformTexts doc ≠ [] := by
  obtain ⟨text,htext⟩ := List.exists_mem_of_ne_nil _ hne
  have htoken : "tf:" ++ text ∈ crossFileTokens F doc' := by
    rw [crossFileTokens_eq]
    exact List.mem_append_right _ (List.mem_map.mpr ⟨text,htext,rfl⟩)
  intro hnil
  have hin := h htoken
  rw [crossFileTokens_eq,hnil,List.map_nil,List.append_nil,List.mem_append] at hin
  rcases hin with hin | hin
  · obtain ⟨key,-,hkey⟩ := List.mem_map.mp hin
    have hsecond := definitionToken_second key
    rw [hkey,terraformToken_second] at hsecond
    cases hsecond
  · obtain ⟨r,-,hr⟩ := List.mem_map.mp hin
    have hsecond := referenceToken_second r.kind
    rw [hr,terraformToken_second] at hsecond
    cases hsecond

/-- Documents with the same tokens have a `terraform` block or have none. -/
theorem terraformTexts_of_perm (h : (crossFileTokens F doc').Perm (crossFileTokens F doc)) :
    F.terraformTexts doc' = [] ↔ F.terraformTexts doc = [] := by
  constructor
  · intro hnil
    by_contra hne
    exact terraformTexts_of_subset h.symm.subset hne hnil
  · intro hnil
    by_contra hne
    exact terraformTexts_of_subset h.subset hne hnil

end tokens

end TerraformLs
