import TerraformLs.ConsistentConversions
import TerraformLs.VersionLists

/-! The scaffolds that a rename of block types writes to the file for `moved`
blocks, and the renames after which every converted resource has exactly one. -/
namespace TerraformLs
namespace BlockRename

open CodeActions

section sorting

variable {α κ : Type} [LinearOrder κ] (key : α → κ)

/-- The list in the order of its keys, with one value for each. -/
def sortDedup (l : List α) : List α :=
  (l.insertionSort (key · ≤ key ·)).destutter (key · ≠ key ·)

theorem mem_of_mem_sortDedup {x : α} {l : List α} (h : x ∈ sortDedup key l) : x ∈ l :=
  (List.mem_insertionSort _).mp ((List.destutter_sublist _ _).subset h)

theorem pairwise_sortDedup (l : List α) : (sortDedup key l).Pairwise (key · < key ·) := by
  have htrans : Trans (key · < key ·) (key · < key ·) (key · < key ·) := ⟨lt_trans⟩
  have htotal : Std.Total (α := α) (key · ≤ key ·) := ⟨fun a b => le_total (key a) (key b)⟩
  have htransLe : IsTrans α (key · ≤ key ·) := ⟨fun a b c hab hbc => le_trans hab hbc⟩
  have hsorted : (sortDedup key l).IsChain (key · ≤ key ·) :=
    ((List.pairwise_insertionSort (key · ≤ key ·) l).sublist (List.destutter_sublist _ _)).isChain
  have hchain : (sortDedup key l).IsChain (key · ≠ key ·) := List.isChain_destutter _ _
  apply List.IsChain.pairwise
  apply List.isChain_iff_forall_rel_of_append_cons_cons.mpr
  intro a b before after heq
  apply lt_of_le_of_ne
  · exact List.isChain_iff_forall_rel_of_append_cons_cons.mp hsorted heq
  · exact List.isChain_iff_forall_rel_of_append_cons_cons.mp hchain heq

theorem exists_mem_destutter' (a : α) (l : List α) :
    ∀ x ∈ a::l, ∃ y ∈ l.destutter' (key · ≠ key ·) a, key y = key x := by
  induction l generalizing a with
  | nil =>
    intro x hx
    exact ⟨a,List.mem_destutter' _ _ _,by rw [List.mem_singleton.mp hx]⟩
  | cons b l ih =>
    intro x hx
    by_cases hab : key a ≠ key b
    · rw [List.destutter'_cons_pos (R := (key · ≠ key ·)) l hab]
      rcases List.mem_cons.mp hx with rfl | hx
      · exact ⟨x,List.mem_cons_self,rfl⟩
      · obtain ⟨y,hy,hkey⟩ := ih b x hx
        exact ⟨y,List.mem_cons_of_mem _ hy,hkey⟩
    · rw [List.destutter'_cons_neg (R := (key · ≠ key ·)) l hab]
      rcases List.mem_cons.mp hx with rfl | hx
      · exact ih x x List.mem_cons_self
      · rcases List.mem_cons.mp hx with rfl | hx
        · obtain ⟨y,hy,hkey⟩ := ih a a List.mem_cons_self
          exact ⟨y,hy,hkey.trans (not_not.mp hab)⟩
        · exact ih a x (List.mem_cons_of_mem _ hx)

/-- Where a key belongs to one value only, no value is lost. -/
theorem mem_sortDedup {l : List α} (h : ∀ x ∈ l, ∀ y ∈ l, key x = key y → x = y) {x : α} :
    x ∈ sortDedup key l ↔ x ∈ l := by
  constructor
  · exact mem_of_mem_sortDedup key
  · intro hx
    have hsorted : x ∈ l.insertionSort (key · ≤ key ·) := (List.mem_insertionSort _).mpr hx
    have hkept : ∃ y ∈ sortDedup key l, key y = key x := by
      unfold sortDedup
      cases hl : l.insertionSort (key · ≤ key ·) with
      | nil =>
        rw [hl] at hsorted
        cases hsorted
      | cons a rest =>
        rw [hl] at hsorted
        exact exists_mem_destutter' key a rest x hsorted
    obtain ⟨y,hy,hkey⟩ := hkept
    rw [← h y (mem_of_mem_sortDedup key hy) x hx hkey]
    exact hy

theorem nodup_sortDedup (l : List α) : (sortDedup key l).Nodup := by
  apply (pairwise_sortDedup key l).imp
  intro a b hlt heq
  rw [heq] at hlt
  exact lt_irrefl _ hlt

end sorting

/-! The step that writes the scaffolds. -/

structure Scaffold where
  spec : BlockRenameSpec
  name : String
  kind : PendingKind
  deriving DecidableEq

/-- An address in two parts, around its first dot. -/
def splitType (address : String) : Option (String × String) :=
  let (head,rest) := RegistryVersions.splitOnce '.' address.toList
  rest.map fun rest => (String.ofList head,String.ofList rest)

def movedPair (m : Address × Address) : Option (String × String × String) := do
  let (fromType,name) ← splitType m.1.text
  let (toType,_) ← splitType m.2.text
  return (fromType,toType,name)

def Scaffold.fromAddress (s : Scaffold) : String := s.spec.fromType ++ "." ++ s.name

def Scaffold.toAddress (s : Scaffold) : String := resolvedTo s.spec ++ "." ++ s.name

def Scaffold.triple (s : Scaffold) : String × String × String :=
  (s.spec.fromType,resolvedTo s.spec,s.name)

def Scaffold.needle (s : Scaffold) : String := "from = " ++ s.fromAddress

def formatMoved (s : Scaffold) : String := String.join
  ["moved \x7b\n  ",s.needle,"\n  to   = ",s.toAddress,"\n\x7d\n"]

def formatCommentedMoved (s : Scaffold) : String := String.join
  ["# moved \x7b\n#   ",s.needle,"\n#   to   = ",s.toAddress,"\n# \x7d\n"]

def commentedManualHeader : String := String.join
  ["\n# AUTO-GENERATED — VERIFY BEFORE UNCOMMENTING\n",
    "# The renamed resource type(s) below have schema differences between the old and\n",
    "# new names (or `MoveResourceState` support varies per provider version).\n",
    "# tfls-rs cannot guarantee the in-place state migration is safe.\n#\n",
    "# Run `terraform plan` first. Then choose the right path:\n",
    "#   - If plan shows no destructive changes → uncomment the matching block(s)\n",
    "#     below to migrate state in place.\n",
    "#   - If plan shows destroy + recreate → DO NOT uncomment. Instead either:\n",
    "#       * `terraform state mv <old.address> <new.address>` per resource\n",
    "#         (preserves state when schemas align), OR\n",
    "#       * remove from state (`terraform state rm <old.address>`) and\n",
    "#         `terraform import <new.address> <provider-specific-id>` after the\n",
    "#         old resource is fully gone.\n",
    "#   - For Kubernetes resources specifically, the import id is usually\n",
    "#     `<namespace>/<name>` (or just `<name>` for cluster-scoped resources).\n",
    "#     See the registry docs for the new resource for exact import syntax.\n\n"]

def commented18Header : String := String.join
  ["\n# CROSS-TYPE `moved` — REQUIRES TERRAFORM 1.8+\n",
    "# The renames below are between *different* resource types and need\n",
    "# Terraform CLI 1.8 (released April 2024) to apply via `moved`. Module's\n",
    "# current `required_version` constraint doesn't admit 1.8+, so the\n",
    "# blocks are commented out.\n#\n# To migrate:\n",
    "#   1. Bump `required_version` in your `terraform \x7b \x7d` block to admit 1.8+,\n",
    "#      then uncomment the matching block(s) below, OR\n",
    "#   2. Migrate manually with `terraform state mv` per resource (works on\n",
    "#      any Terraform version — the new resource must have an identical\n",
    "#      schema, which is the case for these renames).\n\n"]

def commentedSection (header : String) (reason : CommentReason) (scaffolds : List Scaffold) :
    String :=
  let scaffolds := scaffolds.filter (·.kind = .commented reason)
  if scaffolds = [] then ""
  else header ++ String.join (scaffolds.map fun s => formatCommentedMoved s ++ "\n")

/-- The text that is appended for some scaffolds. -/
def scaffoldText (scaffolds : List Scaffold) : String :=
  String.join ((scaffolds.filter (·.kind = .real)).map formatMoved) ++
    commentedSection commentedManualHeader .manualMigration scaffolds ++
      commentedSection commented18Header .needsTerraform18 scaffolds

section step

variable (env : ActionEnvironment) (documents : KeyedMap Url SourceDocument)

def collectExistingMovedPairs (dir : Path) : List (String × String × String) :=
  (moduleDocs env documents dir).flatMap fun e =>
    (movedBlocks (e.2.body.getD [])).filterMap movedPair

def readExistingMovedTfText (dir : Path) : Rope :=
  match env.fs.fromFilePath (movedPath dir) with
  | none => []
  | some url =>
    match documents.lookup url with
    | some doc => doc.rope
    | none => ((env.fs.readToString (movedPath dir)).getD "").toList

/-- Whether a scaffold counts as written already. One that is commented is looked up in the
text of the file for `moved` blocks. -/
def covered (dir : Path) (s : Scaffold) : Bool :=
  match s.kind with
  | .real => s.triple ∈ collectExistingMovedPairs env documents dir
  | .commented _ =>
    (Rename.findText (readExistingMovedTfText env documents dir) s.needle.toList).isSome

def scaffoldOf (entry : Entry) : Option Scaffold :=
  allBlockRenames[entry.1]?.map fun spec => ⟨spec,entry.2.1,entry.2.2⟩

def entryKey (entry : Entry) : ℕ ×ₗ String := toLex (entry.1,entry.2.1)

/-- The scaffolds that the step writes for the converted blocks of a module. -/
def writtenScaffolds (dir : Path) (entries : List Entry) : List Scaffold :=
  if (env.fs.fromFilePath (movedPath dir)).isSome then
    ((sortDedup entryKey entries).filterMap scaffoldOf).filter
      fun s => covered env documents dir s = false
  else []

def scaffoldOps (dir : Path) (entries : List Entry) : List DocumentChangeOperation :=
  let scaffolds := writtenScaffolds env documents dir entries
  if scaffolds = [] then [] else
    match env.fs.fromFilePath (movedPath dir) with
    | none => []
    | some targetUrl => appendOps targetUrl (scaffoldText scaffolds)
        (resolveTargetStrategy env documents targetUrl (movedPath dir))

def buildWorkspaceEdit (c : RenameConversion) : List DocumentChangeOperation :=
  c.renamesByModule.entries.flatMap (fun e => scaffoldOps env documents e.1 e.2) ++
    c.rewrites.map fun e => .edit e.1 e.2

/-- What comes between the text of a file and what is appended to it. -/
def separator : TargetFileStrategy → String
  | .loaded _ needsLeadingNewline | .onDisk _ needsLeadingNewline =>
    (if needsLeadingNewline then "\n" else "") ++ "\n"
  | .create => ""

/-- The block that a real scaffold is read as. -/
def Scaffold.block (s : Scaffold) : Spanned.Structure :=
  .block (0,0) "moved" []
    [.attribute (0,0) "from" (.traversal (0,0) (.variable (0,0) s.spec.fromType)
        [.getAttr (0,0) s.name]),
      .attribute (0,0) "to" (.traversal (0,0) (.variable (0,0) (resolvedTo s.spec))
        [.getAttr (0,0) s.name])]

/-- What the file for `moved` blocks is read as. -/
def movedBody (url : Url) (dir : Path) : Option Spanned.Body :=
  match documents.lookup url with
  | some doc => doc.body
  | none =>
    match env.fs.readToString (movedPath dir) with
    | some content => env.parseBody content
    | none => some []

/-- The file for `moved` blocks once some scaffolds are appended. A real one is read as a block
if its name can stand in an address. -/
def movedDocument (url : Url) (dir : Path) (scaffolds : List Scaffold) : SourceDocument where
  rope := readExistingMovedTfText env documents dir ++
    (separator (resolveTargetStrategy env documents url (movedPath dir)) ++
      scaffoldText scaffolds).toList
  body := (movedBody env documents url dir).map (· ++
    (scaffolds.filter fun s => s.kind = .real ∧ env.isIdentifier s.name = true).map
      Scaffold.block)

/-- The documents after the step has run on a module. -/
def documentsAfter (dir : Path) (scaffolds : List Scaffold) : KeyedMap Url SourceDocument :=
  match env.fs.fromFilePath (movedPath dir) with
  | none => documents
  | some url =>
    if scaffolds = [] then documents
    else documents.insert url (movedDocument env documents url dir scaffolds)

/-- The address that a comment line with `from =` is about. -/
def commentedFrom (line : Rope) : Option String := do
  let line ← GitRefs.stripPrefix ['#'] (GitRefs.trim line)
  let line ← GitRefs.stripPrefix "from".toList (GitRefs.trim line)
  let line ← GitRefs.stripPrefix ['='] (GitRefs.trim line)
  return String.ofList (GitRefs.trim line)

/-- The addresses that have a `moved` block in a document, or one in comments. -/
def scaffolded (doc : SourceDocument) : List String :=
  (movedBlocks (doc.body.getD [])).map (·.1.text) ++
    (doc.rope.splitOn '\n').filterMap commentedFrom

/-- The module has a scaffold for the address. -/
def HasScaffold (dir : Path) (address : String) : Prop :=
  ∃ e ∈ files env documents dir, address ∈ scaffolded e.2

instance (dir : Path) (address : String) : Decidable (HasScaffold env documents dir address) :=
  inferInstanceAs (Decidable (∃ e ∈ files env documents dir, address ∈ scaffolded e.2))

end step

/-! What the step reads. -/

theorem splitOnce_eq_some {c : Char} {l head rest : Rope} :
    RegistryVersions.splitOnce c l = (head,some rest) ↔ l = head ++ c::rest ∧ c ∉ head := by
  induction l generalizing head with
  | nil => simp [RegistryVersions.splitOnce]
  | cons x l ih =>
    by_cases hx : x = c
    · subst hx
      constructor
      · intro h
        simp only [RegistryVersions.splitOnce,ne_eq,List.takeWhile_cons,List.dropWhile_cons,
          not_true_eq_false,decide_false,Bool.false_eq_true,if_false,List.tail?_cons,
          Prod.mk.injEq,Option.some.injEq] at h
        obtain ⟨rfl,rfl⟩ := h
        simp
      · rintro ⟨heq,hmem⟩
        cases head with
        | nil =>
          cases heq
          simp [RegistryVersions.splitOnce]
        | cons y head =>
          obtain ⟨rfl,-⟩ := List.cons_eq_cons.mp heq
          simp at hmem
    · have hsplit : RegistryVersions.splitOnce c (x::l) =
          (x::(RegistryVersions.splitOnce c l).1,(RegistryVersions.splitOnce c l).2) := by
        simp [RegistryVersions.splitOnce,hx]
      rw [hsplit]
      cases head with
      | nil =>
        constructor
        · intro h
          cases h
        · rintro ⟨heq,-⟩
          obtain ⟨hxc,-⟩ := List.cons_eq_cons.mp heq
          exact absurd hxc hx
      | cons y head =>
        have hne : ¬c = x := fun hcx => hx hcx.symm
        rw [Prod.mk.injEq,List.cons_eq_cons,List.cons_append,List.cons_eq_cons,List.mem_cons,
          not_or]
        have hrest : (RegistryVersions.splitOnce c l).1 = head ∧
            (RegistryVersions.splitOnce c l).2 = some rest ↔ l = head ++ c::rest ∧ c ∉ head := by
          rw [← ih,Prod.ext_iff]
        constructor
        · rintro ⟨⟨rfl,hhead⟩,htail⟩
          obtain ⟨heq,hmem⟩ := hrest.mp ⟨hhead,htail⟩
          exact ⟨⟨rfl,heq⟩,hne,hmem⟩
        · rintro ⟨⟨rfl,heq⟩,-,hmem⟩
          obtain ⟨hhead,htail⟩ := hrest.mpr ⟨heq,hmem⟩
          exact ⟨⟨rfl,hhead⟩,htail⟩

theorem splitType_eq_some {address head rest : String} :
    splitType address = some (head,rest) ↔ address = head ++ "." ++ rest ∧ '.' ∉ head.toList := by
  have hsplit : RegistryVersions.splitOnce '.' address.toList =
      (head.toList,some rest.toList) ↔ address.toList = head.toList ++ '.'::rest.toList ∧
        '.' ∉ head.toList := splitOnce_eq_some
  have haddress : address = head ++ "." ++ rest ↔
      address.toList = head.toList ++ '.'::rest.toList := by
    rw [← String.toList_inj]
    simp
  rw [haddress,← hsplit]
  cases hsplitOnce : RegistryVersions.splitOnce '.' address.toList with
  | mk first second =>
    cases second with
    | none => simp [splitType,hsplitOnce]
    | some second =>
      simp only [splitType,hsplitOnce,Option.map_some,Option.some.injEq,Prod.mk.injEq]
      constructor
      · rintro ⟨rfl,rfl⟩
        simp
      · rintro ⟨rfl,rfl⟩
        simp

/-- No type of the table has a dot in it. -/
theorem types_undotted {spec : BlockRenameSpec} (h : spec ∈ allBlockRenames) :
    '.' ∉ spec.fromType.toList ∧ '.' ∉ (resolvedTo spec).toList := by
  have hdot : ¬('.'.isAlphanum ∨ '.' = '_') := by decide
  exact ⟨fun hc => hdot (types_plain h '.' (List.mem_append_left _ hc)),
    fun hc => hdot (resolvedTo_plain h '.' hc)⟩

theorem movedPair_fromAddress {m : Address × Address} {s : Scaffold}
    (h : movedPair m = some s.triple) : m.1.text = s.fromAddress := by
  simp only [movedPair,Option.bind_eq_bind,Option.bind_eq_some_iff,Option.pure_def,
    Option.some.injEq] at h
  obtain ⟨⟨fromType,name⟩,hfrom,⟨toType,other⟩,-,htriple⟩ := h
  cases htriple
  exact (splitType_eq_some.mp hfrom).1

/-- What a real scaffold is read as. -/
theorem movedBlocks_block {s : Scaffold} (hspec : s.spec ∈ allBlockRenames) :
    ∃ m, movedBlocks [s.block] = [m] ∧ movedPair m = some s.triple := by
  obtain ⟨hfrom,hto⟩ := types_undotted hspec
  refine ⟨(⟨(0,0),s.spec.fromType,[s.name]⟩,⟨(0,0),resolvedTo s.spec,[s.name]⟩),rfl,?_⟩
  have hfromText : splitType (Address.text ⟨(0,0),s.spec.fromType,[s.name]⟩) =
      some (s.spec.fromType,s.name) := by
    apply splitType_eq_some.mpr
    simp [Address.text,String.join,hfrom,String.append_assoc]
  have htoText : splitType (Address.text ⟨(0,0),resolvedTo s.spec,[s.name]⟩) =
      some (resolvedTo s.spec,s.name) := by
    apply splitType_eq_some.mpr
    simp [Address.text,String.join,hto,String.append_assoc]
  simp [movedPair,hfromText,htoText,Scaffold.triple]

theorem findText_isSome {text needle : Rope} :
    (Rename.findText text needle).isSome = true ↔ needle <:+: text := by
  rw [Rename.findText,List.find?_isSome]
  constructor
  · rintro ⟨i,-,hpre⟩
    obtain ⟨rest,hrest⟩ := List.isPrefixOf_iff_prefix.mp hpre
    refine ⟨text.take i,rest,?_⟩
    rw [List.append_assoc,hrest,List.take_append_drop]
  · rintro ⟨before,after,rfl⟩
    refine ⟨before.length,List.mem_range.mpr ?_,?_⟩
    · simp only [List.length_append]
      omega
    · rw [List.append_assoc,List.drop_left,List.isPrefixOf_iff_prefix]
      exact List.prefix_append _ _

section coverage

variable {env : ActionEnvironment} {documents : KeyedMap Url SourceDocument} {dir : Path}

theorem mem_collectExistingMovedPairs {p : String × String × String} :
    p ∈ collectExistingMovedPairs env documents dir ↔ ∃ uri doc body,
      documents.lookup uri = some doc ∧ env.fs.parentDir uri = some dir ∧ doc.body = some body ∧
        ∃ m ∈ movedBlocks body, movedPair m = some p := by
  constructor
  · intro h
    obtain ⟨⟨uri,doc⟩,hdoc,hp⟩ := List.mem_flatMap.mp h
    obtain ⟨hlookup,hdir⟩ := mem_moduleDocs.mp hdoc
    obtain ⟨m,hm,hpair⟩ := List.mem_filterMap.mp hp
    cases hbody : doc.body with
    | none => simp [hbody,movedBlocks] at hm
    | some body =>
      have hm : m ∈ movedBlocks (doc.body.getD []) := hm
      rw [hbody] at hm
      exact ⟨uri,doc,body,hlookup,hdir,hbody,m,hm,hpair⟩
  · rintro ⟨uri,doc,body,hlookup,hdir,hbody,m,hm,hpair⟩
    apply List.mem_flatMap.mpr
    refine ⟨(uri,doc),mem_moduleDocs.mpr ⟨hlookup,hdir⟩,List.mem_filterMap.mpr ⟨m,?_,hpair⟩⟩
    have hgetD : doc.body.getD [] = body := by rw [hbody]; rfl
    rw [hgetD]
    exact hm

theorem mem_scaffolded {doc : SourceDocument} {body : Spanned.Body} (hbody : doc.body = some body)
    {m : Address × Address} (hm : m ∈ movedBlocks body) : m.1.text ∈ scaffolded doc := by
  apply List.mem_append_left
  rw [hbody]
  exact List.mem_map_of_mem hm

theorem hasScaffold_of_triple {s : Scaffold}
    (h : s.triple ∈ collectExistingMovedPairs env documents dir) :
    HasScaffold env documents dir s.fromAddress := by
  obtain ⟨uri,doc,body,hlookup,hdir,hbody,m,hm,hpair⟩ := mem_collectExistingMovedPairs.mp h
  rw [← movedPair_fromAddress hpair]
  exact ⟨(uri,doc),List.mem_append_left _ (mem_moduleDocs.mpr ⟨hlookup,hdir⟩),
    mem_scaffolded hbody hm⟩

/-- What the file for `moved` blocks has is in the module. -/
theorem hasScaffold_of_movedBody (hdir : ∀ url, env.fs.fromFilePath (movedPath dir) = some url →
      env.fs.parentDir url = some dir) {url : Url}
    (hurl : env.fs.fromFilePath (movedPath dir) = some url) {body : Spanned.Body}
    (hbody : movedBody env documents url dir = some body) {m : Address × Address}
    (hm : m ∈ movedBlocks body) : HasScaffold env documents dir m.1.text := by
  unfold movedBody at hbody
  cases hdoc : documents.lookup url with
  | some doc =>
    simp only [hdoc] at hbody
    exact ⟨(url,doc),List.mem_append_left _ (mem_moduleDocs.mpr ⟨hdoc,hdir url hurl⟩),
      mem_scaffolded hbody hm⟩
  | none =>
    cases hcontent : env.fs.readToString (movedPath dir) with
    | none =>
      simp only [hdoc,hcontent,Option.some.injEq] at hbody
      rw [← hbody] at hm
      cases hm
    | some content =>
      simp only [hdoc,hcontent] at hbody
      refine ⟨(url,⟨content.toList,env.parseBody content⟩),List.mem_append_right _ ?_,
        mem_scaffolded hbody hm⟩
      simp [unloaded,hurl,hdoc,hcontent]

/-! After the step. -/

theorem join_contains {x : String} {xs : List String} (h : x ∈ xs) :
    x.toList <:+: (String.join xs).toList := by
  induction xs with
  | nil => cases h
  | cons y ys ih =>
    have hjoin : (String.join (y::ys)).toList = y.toList ++ (String.join ys).toList := by
      simp [String.join_cons]
    rw [hjoin]
    rcases List.mem_cons.mp h with rfl | h
    · exact (List.prefix_append _ _).isInfix
    · exact (ih h).trans (List.suffix_append _ _).isInfix

theorem needle_in_section {s : Scaffold} {reason : CommentReason} {scaffolds : List Scaffold}
    (hs : s ∈ scaffolds) (hkind : s.kind = .commented reason) (header : String) :
    s.needle.toList <:+: (commentedSection header reason scaffolds).toList := by
  have hmem : s ∈ scaffolds.filter (·.kind = .commented reason) :=
    List.mem_filter.mpr ⟨hs,decide_eq_true hkind⟩
  have hjoin := join_contains (List.mem_map_of_mem (f := fun s => formatCommentedMoved s ++ "\n") hmem)
  have hlist : (commentedSection header reason scaffolds).toList = header.toList ++ (String.join
      ((scaffolds.filter (·.kind = .commented reason)).map
        fun s => formatCommentedMoved s ++ "\n")).toList := by
    rw [commentedSection,if_neg (List.ne_nil_of_mem hmem),String.toList_append]
  have hformat : s.needle.toList <:+: (formatCommentedMoved s ++ "\n").toList := by
    rewrite [String.toList_append]
    exact (join_contains (List.mem_cons_of_mem _ List.mem_cons_self)).trans
      (List.prefix_append _ _).isInfix
  rewrite [hlist]
  exact (hformat.trans hjoin).trans (List.suffix_append _ _).isInfix

theorem needle_in_text {s : Scaffold} {reason : CommentReason} {scaffolds : List Scaffold}
    (hs : s ∈ scaffolds) (hkind : s.kind = .commented reason) :
    s.needle.toList <:+: (scaffoldText scaffolds).toList := by
  have hlist : (scaffoldText scaffolds).toList =
      (String.join ((scaffolds.filter (·.kind = .real)).map formatMoved)).toList ++
        (commentedSection commentedManualHeader .manualMigration scaffolds).toList ++
          (commentedSection commented18Header .needsTerraform18 scaffolds).toList := by
    rw [scaffoldText,String.toList_append,String.toList_append]
  rewrite [hlist]
  cases reason with
  | needsTerraform18 =>
    exact (needle_in_section hs hkind _).trans (List.suffix_append _ _).isInfix
  | manualMigration =>
    exact ((needle_in_section hs hkind _).trans (List.suffix_append _ _).isInfix).trans
      (List.prefix_append _ _).isInfix

theorem mem_movedBlocks_map {scaffolds : List Scaffold} {m : Address × Address} :
    m ∈ movedBlocks (scaffolds.map Scaffold.block) ↔ ∃ s ∈ scaffolds, m ∈ movedBlocks [s.block] := by
  simp only [movedBlocks,List.mem_filterMap,List.mem_map,List.mem_singleton]
  constructor
  · rintro ⟨item,⟨s,hs,rfl⟩,hm⟩
    exact ⟨s,hs,s.block,rfl,hm⟩
  · rintro ⟨s,hs,item,rfl,hm⟩
    exact ⟨s.block,⟨s,hs,rfl⟩,hm⟩

theorem mem_movedBlocks_append {body blocks : Spanned.Body} {m : Address × Address} :
    m ∈ movedBlocks (body ++ blocks) ↔ m ∈ movedBlocks body ∨ m ∈ movedBlocks blocks := by
  simp [movedBlocks,List.filterMap_append]

variable {url : Url} {scaffolds : List Scaffold}

theorem lookup_documentsAfter (hurl : env.fs.fromFilePath (movedPath dir) = some url)
    (hne : scaffolds ≠ []) (uri : Url) : (documentsAfter env documents dir scaffolds).lookup uri =
      if uri = url then some (movedDocument env documents url dir scaffolds)
      else documents.lookup uri := by
  simp only [documentsAfter,hurl,if_neg hne]
  exact KeyedMap.lookup_insert_of documents url uri _

theorem covered_commented_after {s : Scaffold} {reason : CommentReason}
    (hkind : s.kind = .commented reason)
    (hurl : env.fs.fromFilePath (movedPath dir) = some url)
    (h : covered env documents dir s = true ∨ s ∈ scaffolds) :
    covered env (documentsAfter env documents dir scaffolds) dir s = true := by
  simp only [covered,hkind,findText_isSome] at h ⊢
  by_cases hne : scaffolds = []
  · subst hne
    have hsame : documentsAfter env documents dir [] = documents := by simp [documentsAfter,hurl]
    rw [hsame]
    exact h.resolve_right (List.not_mem_nil)
  · have htext : readExistingMovedTfText env (documentsAfter env documents dir scaffolds) dir =
        readExistingMovedTfText env documents dir ++ (separator (resolveTargetStrategy env documents
          url (movedPath dir)) ++ scaffoldText scaffolds).toList := by
      rw [readExistingMovedTfText]
      simp only [hurl,lookup_documentsAfter hurl hne,if_true,movedDocument]
    rw [htext]
    rcases h with h | h
    · exact h.trans (List.prefix_append _ _).isInfix
    · rw [String.toList_append]
      exact ((needle_in_text h hkind).trans (List.suffix_append _ _).isInfix).trans
        (List.suffix_append _ _).isInfix

theorem movedDocument_body {body : Spanned.Body}
    (h : movedBody env documents url dir = some body) :
    (movedDocument env documents url dir scaffolds).body = some (body ++ (scaffolds.filter
      fun s => s.kind = .real ∧ env.isIdentifier s.name = true).map Scaffold.block) := by
  simp only [movedDocument,h,Option.map_some]

/-- A triple is still there after the step. -/
theorem triple_kept (hurl : env.fs.fromFilePath (movedPath dir) = some url)
    {p : String × String × String} (h : p ∈ collectExistingMovedPairs env documents dir) :
    p ∈ collectExistingMovedPairs env (documentsAfter env documents dir scaffolds) dir := by
  by_cases hne : scaffolds = []
  · subst hne
    have hsame : documentsAfter env documents dir [] = documents := by simp [documentsAfter,hurl]
    rw [hsame]
    exact h
  · obtain ⟨uri,doc,body,hdoc,hdir,hbody,m,hm,hpair⟩ := mem_collectExistingMovedPairs.mp h
    apply mem_collectExistingMovedPairs.mpr
    by_cases huri : uri = url
    · subst huri
      have hmovedBody : movedBody env documents uri dir = some body := by
        simp only [movedBody,hdoc,hbody]
      refine ⟨uri,movedDocument env documents uri dir scaffolds,_,?_,hdir,
        movedDocument_body hmovedBody,m,mem_movedBlocks_append.mpr (.inl hm),hpair⟩
      rw [lookup_documentsAfter hurl hne,if_pos rfl]
    · refine ⟨uri,doc,body,?_,hdir,hbody,m,hm,hpair⟩
      rw [lookup_documentsAfter hurl hne,if_neg huri]
      exact hdoc

/-- A real scaffold is read back when the file is read and its name can stand in an address. -/
theorem triple_read (hurl : env.fs.fromFilePath (movedPath dir) = some url)
    (hdir : env.fs.parentDir url = some dir) {s : Scaffold} (hs : s ∈ scaffolds)
    (hspec : s.spec ∈ allBlockRenames) (hkind : s.kind = .real)
    (hname : env.isIdentifier s.name = true)
    (hbody : (movedBody env documents url dir).isSome = true) :
    s.triple ∈ collectExistingMovedPairs env (documentsAfter env documents dir scaffolds) dir := by
  obtain ⟨body,hbody⟩ := Option.isSome_iff_exists.mp hbody
  obtain ⟨m,hm,hpair⟩ := movedBlocks_block hspec
  apply mem_collectExistingMovedPairs.mpr
  refine ⟨url,movedDocument env documents url dir scaffolds,_,?_,hdir,movedDocument_body hbody,m,
    mem_movedBlocks_append.mpr (.inr (mem_movedBlocks_map.mpr ⟨s,?_,?_⟩)),hpair⟩
  · rw [lookup_documentsAfter hurl (List.ne_nil_of_mem hs),if_pos rfl]
  · exact List.mem_filter.mpr ⟨hs,decide_eq_true ⟨hkind,hname⟩⟩
  · rw [hm]
    exact List.mem_singleton_self m

/-- Only what was there and what is read back is there after the step. -/
theorem triple_after (hdir : ∀ url, env.fs.fromFilePath (movedPath dir) = some url →
      env.fs.parentDir url = some dir) (hurl : env.fs.fromFilePath (movedPath dir) = some url)
    (hspecs : ∀ s ∈ scaffolds, s.spec ∈ allBlockRenames) {s : Scaffold}
    (h : s.triple ∈ collectExistingMovedPairs env (documentsAfter env documents dir scaffolds) dir) :
    HasScaffold env documents dir s.fromAddress ∨
      (movedBody env documents url dir).isSome = true ∧ env.isIdentifier s.name = true := by
  by_cases hne : scaffolds = []
  · subst hne
    have hsame : documentsAfter env documents dir [] = documents := by simp [documentsAfter,hurl]
    rw [hsame] at h
    exact .inl (hasScaffold_of_triple h)
  · obtain ⟨uri,doc,body,hdoc,huriDir,hbody,m,hm,hpair⟩ := mem_collectExistingMovedPairs.mp h
    rw [lookup_documentsAfter hurl hne] at hdoc
    split_ifs at hdoc with huri
    · have hdoc := Option.some.inj hdoc
      subst hdoc
      obtain ⟨before,hbefore,rfl⟩ := Option.map_eq_some_iff.mp hbody
      rcases mem_movedBlocks_append.mp hm with hm | hm
      · left
        rw [← movedPair_fromAddress hpair]
        exact hasScaffold_of_movedBody hdir hurl hbefore hm
      · right
        obtain ⟨s',hs',hm⟩ := mem_movedBlocks_map.mp hm
        obtain ⟨hs',hkept⟩ := List.mem_filter.mp hs'
        obtain ⟨m',hm',hpair'⟩ := movedBlocks_block (hspecs s' hs')
        rw [hm',List.mem_singleton] at hm
        rw [hm,hpair'] at hpair
        have hname : s'.name = s.name := (Prod.ext_iff.mp (Prod.ext_iff.mp
          (Option.some.inj hpair)).2).2
        rw [← hname,hbefore]
        exact ⟨rfl,(of_decide_eq_true hkept).2⟩
    · left
      exact hasScaffold_of_triple
        (mem_collectExistingMovedPairs.mpr ⟨uri,doc,body,hdoc,huriDir,hbody,m,hm,hpair⟩)

end coverage

/-! What a request converts. -/

section conversions

variable {env : ActionEnvironment} {supported : Path → ℕ → Bool} {admits18 : Path → Bool}
  {documents : KeyedMap Url SourceDocument} {primary : Url} {request : Request}
  {c : RenameConversion} {dir : Path}

/-- The request converts a block of the name. -/
def Targets (env : ActionEnvironment) (supported : Path → ℕ → Bool)
    (documents : KeyedMap Url SourceDocument) (primary : Url) (request : Request)
    (spec : BlockRenameSpec) (dir : Path) (name : String) : Prop :=
  spec.rule.Targets env documents (fun uri range => TakesLabel env supported documents primary
    request dir uri spec.blockKind spec.fromType range) dir name

theorem converted_iff (hlocated : ∀ uri doc body, documents.lookup uri = some doc →
      doc.body = some body → Located doc.rope body)
    (h : emitted env supported admits18 documents primary request = some c)
    {spec : BlockRenameSpec} (hspec : spec ∈ allBlockRenames) {name : String} :
    spec.rule.BlockConverted env documents c.rewrites dir name ↔
      Targets env supported documents primary request spec dir name := by
  apply Rule.blockConverted_iff
  intro uri doc body hdoc hdir hbody item hitem label hlabel
  exact label_rewritten_iff h hdoc hbody hdir (hlocated uri doc body hdoc hbody) hitem hspec hlabel

theorem mem_entriesOf {plan : DocumentPlan} {entry : Entry} :
    (dir,entry) ∈ entriesOf admits18 plan ↔ plan.dir = dir ∧ ∃ spec e,
      (entry.1,entry.2.1,e) ∈ plan.blocks ∧ allBlockRenames[entry.1]? = some spec ∧
        spec.isResource = true ∧ entry.2.2 = pendingKind (admits18 dir) spec := by
  obtain ⟨idx,name,kind⟩ := entry
  simp only [entriesOf,List.mem_filterMap,Option.bind_eq_bind,Option.bind_eq_some_iff]
  constructor
  · rintro ⟨⟨idx',name',e⟩,hblock,spec,hspec,hentry⟩
    split_ifs at hentry with hresource
    cases hentry
    exact ⟨rfl,spec,e,hblock,hspec,hresource,rfl⟩
  · rintro ⟨rfl,spec,e,hblock,hspec,hresource,hkind⟩
    refine ⟨(idx,name,e),hblock,spec,hspec,?_⟩
    rw [if_pos hresource,← hkind]

theorem getElem_of_byKindLabel {kind label : String} {spec : BlockRenameSpec} {idx : ℕ}
    (h : byKindLabel kind label = some (spec,idx)) : allBlockRenames[idx]? = some spec :=
  List.mem_zipIdx_iff_getElem?.mp (List.mem_of_mem_filter (List.mem_of_getLast? h))

theorem byKindLabel_of_getElem {spec : BlockRenameSpec} {idx : ℕ}
    (h : allBlockRenames[idx]? = some spec) :
    byKindLabel spec.blockKind spec.fromType = some (spec,idx) :=
  byKindLabel_zipIdx (e:=(spec,idx)) (List.mem_zipIdx_iff_getElem?.mpr h)

theorem label_of_byKindLabel {kind : String} {label next : Spanned.BlockLabel}
    {spec : BlockRenameSpec} {idx : ℕ} (h : byKindLabel kind label.text = some (spec,idx))
    (span : Spanned.Span) (labels : List Spanned.BlockLabel) (inner : Spanned.Body) :
    spec.rule.label next.text (.block span kind (label::next::labels) inner) = some label := by
  obtain ⟨-,hkind,htype⟩ := mem_of_byKindLabel h
  simp [Rule.label,BlockRenameSpec.rule,hkind,htype]

theorem visit_blocks {scope : Scope} {uri : Url} {doc : SourceDocument} {plan : DocumentPlan}
    (h : visit env supported scope (uri,doc) = some plan) : ∃ body, doc.body = some body ∧
      env.fs.parentDir uri = some plan.dir ∧ plan.blocks =
        (scanBlockRewrites doc.rope (supported plan.dir) body).filter
          (scope.takes ·.2.2.range) := by
  cases hbody : doc.body with
  | none => simp [visit,hbody] at h
  | some body =>
    cases hdir : env.fs.parentDir uri with
    | none => simp [visit,hbody,hdir] at h
    | some dir =>
      simp only [visit,hbody,hdir,Option.bind_eq_bind,Option.bind_some] at h
      split_ifs at h
      rw [← Option.some.inj h]
      exact ⟨body,rfl,rfl,rfl⟩

/-- A document with a block that the scope takes is visited. -/
theorem visit_of_block {scope : Scope} {uri : Url} {doc : SourceDocument} {body : Spanned.Body}
    (hbody : doc.body = some body) (hdir : env.fs.parentDir uri = some dir)
    {block : ℕ × String × TextEdit} (hblock : block ∈ scanBlockRewrites doc.rope (supported dir) body)
    (htakes : scope.takes block.2.2.range = true) :
    ∃ plan, visit env supported scope (uri,doc) = some plan ∧ plan.dir = dir ∧
      block ∈ plan.blocks := by
  have hkept : block ∈ (scanBlockRewrites doc.rope (supported dir) body).filter
      (scope.takes ·.2.2.range) := List.mem_filter.mpr ⟨hblock,htakes⟩
  have hsome : ¬((scanBlockRewrites doc.rope (supported dir) body).filter
      (scope.takes ·.2.2.range) = [] ∧
        (scanRefRewrites doc.rope (supported dir) byFrom body).map Prod.snd = []) := by
    rintro ⟨hblocks,-⟩
    rw [hblocks] at hkept
    cases hkept
  simp only [visit,hbody,hdir,Option.bind_eq_bind,Option.bind_some,if_neg hsome]
  exact ⟨_,rfl,rfl,hkept⟩

/-- What is filed for a module are the resources that are converted. -/
theorem mem_renamesByModule (hlocated : ∀ uri doc body, documents.lookup uri = some doc →
      doc.body = some body → Located doc.rope body)
    (h : emitted env supported admits18 documents primary request = some c) {entry : Entry} :
    entry ∈ Multimap.filed c.renamesByModule dir ↔ ∃ spec, allBlockRenames[entry.1]? = some spec ∧
      spec.isResource = true ∧ entry.2.2 = pendingKind (admits18 dir) spec ∧
        Targets env supported documents primary request spec dir entry.2.1 := by
  cases request with
  | inScope scope =>
    have hrenames : c.renamesByModule = Multimap.pushAll ∅
        ((plans env supported documents primary scope).flatMap (entriesOf admits18)) := by
      simp only [emitted,scopedConversion] at h
      split_ifs at h
      rw [← Option.some.inj h]
    rw [hrenames,Multimap.filed_pushAll,Multimap.filed_empty,List.nil_append,Multimap.mem_rowsAt]
    constructor
    · intro hmem
      obtain ⟨plan,hplan,hentry⟩ := List.mem_flatMap.mp hmem
      obtain ⟨⟨uri,doc⟩,hscope,hvisit⟩ := List.mem_filterMap.mp hplan
      obtain ⟨rfl,spec,e,hblock,hspec,hresource,hkind⟩ := mem_entriesOf.mp hentry
      obtain ⟨body,hbody,hdir,hblocks⟩ := visit_blocks hvisit
      rw [hblocks] at hblock
      obtain ⟨hblock,htakes⟩ := List.mem_filter.mp hblock
      obtain ⟨span,ident,label,next,labels,inner,spec',hitem,hname,hrule,hsupported,hrange,-⟩ :=
        mem_scanBlockRewrites.mp hblock
      cases hspec.symm.trans (getElem_of_byKindLabel hrule)
      refine ⟨spec,hspec,hresource,hkind,uri,doc,body,lookup_of_mem_docsInScope hscope,hdir,hbody,
        _,hitem,label,?_,e.range,hrange,⟨doc,hscope⟩,
          ⟨spec,_,byKindLabel_of_getElem hspec,hsupported⟩,htakes⟩
      rw [← hname]
      exact label_of_byKindLabel hrule span labels inner
    · rintro ⟨spec,hspec,hresource,hkind,uri,doc,body,hdoc,hdir,hbody,item,hitem,label,hlabel,
        range,hrange,⟨doc',hscope⟩,⟨spec',idx,hrule,hsupported⟩,htakes⟩
      obtain ⟨span,next,labels,inner,rfl,htype,hname⟩ := label_of_mem hlabel
      have hspec' := byKindLabel_of_getElem hspec
      rw [hspec'] at hrule
      cases hrule
      cases hdoc.symm.trans (lookup_of_mem_docsInScope hscope)
      have hblock : (entry.1,entry.2.1,(⟨range,"\"" ++ resolvedTo spec ++ "\""⟩ : TextEdit)) ∈
          scanBlockRewrites doc.rope (supported dir) body := by
        apply mem_scanBlockRewrites.mpr
        refine ⟨span,_,label,next,labels,inner,spec,hitem,hname,?_,hsupported,hrange,rfl⟩
        rw [htype]
        exact hspec'
      obtain ⟨plan,hvisit,hplanDir,hblock⟩ := visit_of_block hbody hdir hblock htakes
      apply List.mem_flatMap.mpr
      exact ⟨plan,List.mem_filterMap.mpr ⟨(uri,doc),hscope,hvisit⟩,
        mem_entriesOf.mpr ⟨hplanDir,spec,_,hblock,hspec,hresource,hkind⟩⟩
  | atCursor cursor =>
    obtain ⟨doc,body,dir',b,hdoc,hbody,hdir',hb,hsupported,⟨item,hitem,hmatched⟩,-,hrenames⟩ :=
      emitted_cursor h
    obtain ⟨span,ident,label,next,labels,inner,rfl,hrule,hname,hrange⟩ :=
      matchedBlock_shape hmatched
    rw [hrenames,Multimap.filed_pushAll,Multimap.filed_empty,List.nil_append,Multimap.mem_rowsAt]
    constructor
    · intro hmem
      split_ifs at hmem with hresource
      · cases List.mem_singleton.mp hmem
        refine ⟨b.spec,getElem_of_byKindLabel hrule,hresource,rfl,primary,doc,body,hdoc,hdir',hbody,
          _,hitem,label,?_,b.labelRange,hrange,rfl,b,hb,rfl⟩
        have hlabel : b.spec.rule.label next.text
            (.block span ident (label::next::labels) inner) = some label :=
          label_of_byKindLabel hrule span labels inner
        rw [hname] at hlabel
        exact hlabel
      · cases hmem
    · rintro ⟨spec,hspec,hresource,hkind,uri,doc',body',hdocUri,hdir,hbody',item',hitem',label',
        hlabel',range,hrange',rfl,b',hb',hlabelRange⟩
      cases hb.symm.trans hb'
      cases hdoc.symm.trans hdocUri
      cases hbody.symm.trans hbody'
      cases hdir'.symm.trans hdir
      obtain ⟨span',next',labels',inner',rfl,htype,hname'⟩ := label_of_mem hlabel'
      rw [hlabelRange] at hrange
      have hsame := (hlocated uri doc body hdoc hbody).labels _ hitem _ hitem' label rfl label' rfl
        range.start (hclSpanToLspRange_start hrange) (hclSpanToLspRange_start hrange')
      cases hsame
      have hspec' := byKindLabel_of_getElem hspec
      rw [htype,hspec'] at hrule
      obtain ⟨hbspec,hbidx⟩ := Prod.mk.inj (Option.some.inj hrule)
      rw [← hbspec,← hbidx,if_pos hresource,List.mem_singleton,← hname,hname',← hkind]

/-- The scaffold of a converted resource. -/
def BlockRenameSpec.scaffold (spec : BlockRenameSpec) (admits18 : Bool) (name : String) : Scaffold :=
  ⟨spec,name,pendingKind admits18 spec⟩

/-- What the step writes for the converted blocks of a module, whatever the documents are. -/
theorem mem_writtenScaffolds (hlocated : ∀ uri doc body, documents.lookup uri = some doc →
      doc.body = some body → Located doc.rope body)
    (h : emitted env supported admits18 documents primary request = some c)
    {others : KeyedMap Url SourceDocument} {s : Scaffold} :
    s ∈ writtenScaffolds env others dir (Multimap.filed c.renamesByModule dir) ↔
      (env.fs.fromFilePath (movedPath dir)).isSome = true ∧ covered env others dir s = false ∧
        s.spec ∈ allBlockRenames ∧ s.spec.isResource = true ∧
          s = s.spec.scaffold (admits18 dir) s.name ∧
            Targets env supported documents primary request s.spec dir s.name := by
  have hkeys : ∀ x ∈ Multimap.filed c.renamesByModule dir,
      ∀ y ∈ Multimap.filed c.renamesByModule dir, entryKey x = entryKey y → x = y := by
    intro x hx y hy hkey
    obtain ⟨spec,hspec,-,hkind,-⟩ := (mem_renamesByModule hlocated h).mp hx
    obtain ⟨spec',hspec',-,hkind',-⟩ := (mem_renamesByModule hlocated h).mp hy
    obtain ⟨hidx,hname⟩ := Prod.mk.inj (toLex.injective hkey)
    rw [hidx,hspec'] at hspec
    cases hspec
    exact Prod.ext hidx (Prod.ext hname (hkind.trans hkind'.symm))
  by_cases hurl : (env.fs.fromFilePath (movedPath dir)).isSome = true
  · rw [writtenScaffolds,if_pos hurl,List.mem_filter,decide_eq_true_eq,List.mem_filterMap]
    constructor
    · rintro ⟨⟨entry,hentry,hscaffold⟩,hcovered⟩
      rw [mem_sortDedup entryKey hkeys] at hentry
      obtain ⟨spec,hspec,hresource,hkind,htargets⟩ := (mem_renamesByModule hlocated h).mp hentry
      simp only [scaffoldOf,hspec,Option.map_some,Option.some.injEq] at hscaffold
      subst hscaffold
      refine ⟨hurl,hcovered,List.mem_of_getElem? hspec,hresource,?_,htargets⟩
      rw [BlockRenameSpec.scaffold,hkind]
    · rintro ⟨-,hcovered,hspec,hresource,hscaffold,htargets⟩
      obtain ⟨idx,hidx⟩ := List.mem_iff_getElem?.mp hspec
      refine ⟨⟨(idx,s.name,s.kind),?_,?_⟩,hcovered⟩
      · rw [mem_sortDedup entryKey hkeys]
        apply (mem_renamesByModule hlocated h).mpr
        refine ⟨s.spec,hidx,hresource,?_,htargets⟩
        rw [hscaffold]
        rfl
      · simp [scaffoldOf,hidx]
  · rw [writtenScaffolds,if_neg hurl]
    constructor
    · intro hs
      cases hs
    · rintro ⟨hsome,-⟩
      exact absurd hsome hurl

theorem nodup_writtenScaffolds (dir : Path) (entries : List Entry) :
    (writtenScaffolds env documents dir entries).Nodup := by
  unfold writtenScaffolds
  split_ifs
  · apply List.Nodup.filter
    apply (nodup_sortDedup entryKey entries).filterMap
    intro x y s hx hy
    obtain ⟨spec,hspec,rfl⟩ := Option.map_eq_some_iff.mp hx
    obtain ⟨spec',hspec',heq⟩ := Option.map_eq_some_iff.mp hy
    obtain ⟨hsame,hname,hkind⟩ := Scaffold.mk.inj heq
    rw [hsame] at hspec'
    have hidx := (byKindLabel_of_getElem hspec).symm.trans (byKindLabel_of_getElem hspec')
    rw [Option.some.injEq,Prod.mk.injEq] at hidx
    exact Prod.ext hidx.2 (Prod.ext hname.symm hkind.symm)
  · exact List.nodup_nil

/-- The resources of the table have different types. -/
theorem eq_of_fromType {spec spec' : BlockRenameSpec} (hspec : spec ∈ allBlockRenames)
    (hspec' : spec' ∈ allBlockRenames) (hresource : spec.isResource = true)
    (hresource' : spec'.isResource = true) (h : spec.fromType = spec'.fromType) : spec = spec' := by
  obtain ⟨idx,hidx⟩ := byKindLabel_of_mem hspec
  obtain ⟨idx',hidx'⟩ := byKindLabel_of_mem hspec'
  have hkind : spec.blockKind = spec'.blockKind :=
    (of_decide_eq_true hresource).trans (of_decide_eq_true hresource').symm
  rw [h,hkind,hidx'] at hidx
  exact (Prod.mk.inj (Option.some.inj hidx)).1.symm

theorem fromAddress_injective {s s' : Scaffold} (hspec : s.spec ∈ allBlockRenames)
    (hspec' : s'.spec ∈ allBlockRenames) (h : s.fromAddress = s'.fromAddress) :
    s.spec.fromType = s'.spec.fromType ∧ s.name = s'.name := by
  have hsplit : ∀ s : Scaffold, s.spec ∈ allBlockRenames →
      splitType s.fromAddress = some (s.spec.fromType,s.name) := by
    intro s hspec
    exact splitType_eq_some.mpr ⟨rfl,(types_undotted hspec).1⟩
  have hsame := (hsplit s hspec).symm
  rw [h,hsplit s' hspec'] at hsame
  obtain ⟨htype,hname⟩ := Prod.mk.inj (Option.some.inj hsame)
  exact ⟨htype,hname⟩

/-- The step writes one scaffold for each converted resource of a module that has none, and no other. -/
structure ExactScaffolds (env : ActionEnvironment) (admits18 : Path → Bool)
    (documents : KeyedMap Url SourceDocument) (c : RenameConversion) (dir : Path)
    (written : List Scaffold) : Prop where
  once : ∀ spec ∈ allBlockRenames, spec.isResource = true → ∀ name,
    spec.rule.BlockConverted env documents c.rewrites dir name →
      ¬HasScaffold env documents dir (spec.scaffold (admits18 dir) name).fromAddress →
        written.filter (fun s => s.fromAddress = (spec.scaffold (admits18 dir) name).fromAddress) =
          [spec.scaffold (admits18 dir) name]
  fresh : ∀ s ∈ written, ¬HasScaffold env documents dir s.fromAddress
  only : ∀ s ∈ written, s.spec ∈ allBlockRenames ∧ s = s.spec.scaffold (admits18 dir) s.name ∧
    s.spec.rule.BlockConverted env documents c.rewrites dir s.name

/-- The step tells whether the module has the scaffold, and reads a real one back. -/
def Recognized (env : ActionEnvironment) (documents : KeyedMap Url SourceDocument) (dir : Path)
    (s : Scaffold) : Prop :=
  ((env.fs.fromFilePath (movedPath dir)).isSome = true ∧ covered env documents dir s = false ↔
    ¬HasScaffold env documents dir s.fromAddress) ∧
  ∀ url, env.fs.fromFilePath (movedPath dir) = some url → covered env documents dir s = false →
    s.kind = .real →
      (movedBody env documents url dir).isSome = true ∧ env.isIdentifier s.name = true

end conversions

def movedUrl : Url := "file:///m/moved.tf"

def podFiles : FileSystem where
  canonicalize := some
  readDir := fun _ => none
  readToString := fun _ => none
  metadata := fun _ => none
  isDir := fun path => path = ["m"]
  isFile := fun path => path = ["m","main.tf"]
  toFilePath := fun url => if url = NullResource.mainUrl then some ["m","main.tf"] else
    if url = movedUrl then some ["m","moved.tf"] else none
  fromFilePath := fun path => if path = ["m","moved.tf"] then some movedUrl else none

def podEnvironment : ActionEnvironment := { NullResource.mainEnvironment with fs := podFiles }

theorem podFiles_dir : ∀ dir url, podFiles.fromFilePath (movedPath dir) = some url →
    podFiles.parentDir url = some dir := by
  intro dir url hurl
  have hpath : movedPath dir = ["m","moved.tf"] ∧ url = movedUrl := by
    simp only [podFiles] at hurl
    split_ifs at hurl with hmoved
    exact ⟨hmoved,(Option.some.inj hurl).symm⟩
  obtain ⟨hmoved,rfl⟩ := hpath
  have hdir := (Path.parent_concat dir "moved.tf").symm
  rw [← movedPath,hmoved] at hdir
  rw [hdir]
  rfl

def podSpec : BlockRenameSpec := k8sV1 "kubernetes_pod"

def podMain : SourceDocument where
  rope := "resource \"kubernetes_pod\" \"web\" \x7b\x7d".toList
  body := some [.block (0,34) "resource" [⟨(9,25),"kubernetes_pod"⟩,⟨(26,31),"web"⟩] []]

/-- A file with a scaffold for another name, in comments. -/
def podMoved : SourceDocument where
  rope := (formatCommentedMoved (podSpec.scaffold true "web2")).toList
  body := some []

def podDocuments : KeyedMap Url SourceDocument :=
  (∅ : KeyedMap Url SourceDocument).insert NullResource.mainUrl podMain

theorem podMain_located : ∀ body, podMain.body = some body → Located podMain.rope body := by
  intro body hbody
  cases hbody
  refine ⟨?_,?_,?_,?_,?_⟩
  · intro item hitem label hlabel
    rw [List.mem_singleton.mp hitem] at hlabel
    cases hlabel
    exact ⟨⟨⟨0,9⟩,⟨0,25⟩⟩,by decide +kernel⟩
  · intro item hitem label hlabel
    rw [List.mem_singleton.mp hitem] at hlabel
    cases hlabel
    exact ⟨'r',_,rfl,by decide⟩
  · intro item hitem item' hitem' label hlabel label' hlabel' pos hpos hpos'
    rw [List.mem_singleton.mp hitem,List.mem_singleton.mp hitem']
  · intro e he
    cases he
  · intro e he
    cases he

theorem podDocuments_located : ∀ uri doc body, podDocuments.lookup uri = some doc →
    doc.body = some body → Located doc.rope body := by
  intro uri doc body hdoc hbody
  rw [podDocuments,KeyedMap.lookup_insert_of] at hdoc
  split_ifs at hdoc
  · cases hdoc
    exact podMain_located body hbody
  · cases hdoc

theorem targets_pod {spec : BlockRenameSpec} (hspec : spec ∈ allBlockRenames)
    (hresource : spec.isResource = true) {request : Request} {dir : Path} {name : String}
    (h : Targets podEnvironment (fun _ _ => true) podDocuments NullResource.mainUrl request spec
      dir name) : spec = podSpec ∧ dir = ["m"] ∧ name = "web" := by
  obtain ⟨uri,doc,body,hdoc,hdir,hbody,item,hitem,label,hlabel,-⟩ := h
  rw [podDocuments,KeyedMap.lookup_insert_of] at hdoc
  split_ifs at hdoc with huri
  · cases hdoc
    cases hbody
    rw [huri] at hdir
    have hdir : some ["m"] = some dir := hdir
    cases hdir
    obtain ⟨span,next,labels,inner,heq,htype,hname⟩ := label_of_mem hlabel
    rw [List.mem_singleton.mp hitem] at heq
    obtain ⟨-,-,hlabels,-⟩ := Spanned.Structure.block.inj heq
    cases hlabels
    have hpod : podSpec ∈ allBlockRenames := by decide +kernel
    exact ⟨eq_of_fromType hspec hpod hresource rfl htype.symm,rfl,hname.symm⟩
  · cases hdoc

end BlockRename
end TerraformLs
