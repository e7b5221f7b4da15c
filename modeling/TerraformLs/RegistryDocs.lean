import TerraformLs.DiskCaches
import TerraformLs.ProviderSchemas

/-! The registry's documentation merged into the schemas of providers. Pages are fetched
in any order; what was parsed is kept in a file, which later passes read instead. -/
namespace TerraformLs

namespace RegistryDocs

open ProviderSchemas

section merging

structure ParsedAttribute where
  description : String
  allowedValues : Option (List String)

/-- What a page says of the attributes of a type. -/
abbrev TypeDocs := KeyedMap String ParsedAttribute

def isMissing (description : Option String) : Bool := description.all String.isEmpty

/-- Only what the schema leaves out is taken from the page. -/
def fillAttribute (parsed : ParsedAttribute) (attr : AttributeSchema) : AttributeSchema :=
  { attr with
    description :=
      if isMissing attr.description then some parsed.description else attr.description
    allowedValues := if attr.allowedValues.isNone then parsed.allowedValues else attr.allowedValues }

def touches (parsed : ParsedAttribute) (attr : AttributeSchema) : Bool :=
  isMissing attr.description || (attr.allowedValues.isNone && parsed.allowedValues.isSome)

def filled (docs : TypeDocs) (name : String) (attr : AttributeSchema) : AttributeSchema :=
  match docs.lookup name with
  | some parsed => fillAttribute parsed attr
  | none => attr

/-- Nested blocks are left as they are: pages reuse the names of attributes there. -/
def mergeDescriptionsIntoBlock (docs : TypeDocs) : BlockSchema → BlockSchema × ℕ
  | .mk attributes blockTypes description descriptionKind deprecated =>
    (.mk (attributes.mapValues (filled docs)) blockTypes description descriptionKind deprecated,
      attributes.entries.countP fun e => (docs.lookup e.1).any fun parsed => touches parsed e.2)

def schemaHasMissingDescriptions (schema : Schema) : Bool :=
  schema.block.attributes.entries.any fun e => isMissing e.2.description

inductive DocKind
  | resource | dataSource
  deriving DecidableEq

structure ProviderSchema where
  provider : Schema
  resourceSchemas : KeyedMap String Schema
  dataSourceSchemas : KeyedMap String Schema

/-- The documentation of one type. -/
structure Page where
  kind : DocKind
  typeName : String
  docs : TypeDocs

namespace ProviderSchema

def schemas (s : ProviderSchema) : DocKind → KeyedMap String Schema
  | .resource => s.resourceSchemas
  | .dataSource => s.dataSourceSchemas

def change (s : ProviderSchema) (kind : DocKind)
    (f : KeyedMap String Schema → KeyedMap String Schema) : ProviderSchema :=
  match kind with
  | .resource => { s with resourceSchemas := f s.resourceSchemas }
  | .dataSource => { s with dataSourceSchemas := f s.dataSourceSchemas }

def describe (s : ProviderSchema) (p : Page) : ProviderSchema :=
  s.change p.kind (KeyedMap.updateAt p.typeName fun schema =>
    { schema with block := (mergeDescriptionsIntoBlock p.docs schema.block).1 })

/-- How many attributes the page touches. -/
def touched (s : ProviderSchema) (p : Page) : ℕ :=
  match (s.schemas p.kind).lookup p.typeName with
  | some schema => (mergeDescriptionsIntoBlock p.docs schema.block).2
  | none => 0

end ProviderSchema

def mergePage (st : ProviderSchema × ℕ) (p : Page) : ProviderSchema × ℕ :=
  (st.1.describe p,st.2+st.1.touched p)

def Page.key (p : Page) : DocKind × String := (p.kind,p.typeName)

theorem ProviderSchema.schemas_change (s : ProviderSchema) (kind kind' : DocKind)
    (f : KeyedMap String Schema → KeyedMap String Schema) :
    (s.change kind f).schemas kind' = if kind' = kind then f (s.schemas kind') else s.schemas kind' := by
  cases kind <;> cases kind' <;> rfl

theorem touched_describe {p q : Page} (h : p.key ≠ q.key) (s : ProviderSchema) :
    (s.describe q).touched p = s.touched p := by
  have hlookup : ((s.describe q).schemas p.kind).lookup p.typeName =
      (s.schemas p.kind).lookup p.typeName := by
    rw [ProviderSchema.describe,ProviderSchema.schemas_change]
    split
    · rename_i hkind
      have hname : p.typeName ≠ q.typeName := fun hname => h (Prod.ext hkind hname)
      exact KeyedMap.lookup_updateAt_ne hname _ _
    · rfl
  rw [ProviderSchema.touched,ProviderSchema.touched,hlookup]

theorem describe_comm {p q : Page} (h : p.key ≠ q.key) (s : ProviderSchema) :
    (s.describe q).describe p = (s.describe p).describe q := by
  obtain ⟨kind,name,docs⟩ := p
  obtain ⟨kind',name',docs'⟩ := q
  by_cases hkind : kind = kind'
  · subst hkind
    have hname : name ≠ name' := fun hname => h (Prod.ext rfl hname)
    cases kind <;>
      simp only [ProviderSchema.describe,ProviderSchema.change,KeyedMap.updateAt_comm hname]
  · cases kind <;> cases kind' <;> first | rfl | exact absurd rfl hkind

theorem mergePage_comm {p q : Page} (h : p.key ≠ q.key) (st : ProviderSchema × ℕ) :
    mergePage (mergePage st q) p = mergePage (mergePage st p) q := by
  rw [mergePage,mergePage,mergePage,mergePage,describe_comm h,touched_describe h,
    touched_describe (Ne.symm h),Nat.add_right_comm]

/-- Pages of different types may be merged in any order. -/
theorem mergePages_perm {ps qs : List Page} (h : ps.Perm qs) (hkeys : (ps.map Page.key).Nodup)
    (st : ProviderSchema × ℕ) : ps.foldl mergePage st = qs.foldl mergePage st := by
  refine h.foldl_eq' (fun p hp q hq st => ?_) st
  by_cases hkey : p.key = q.key
  · rw [List.inj_on_of_nodup_map hkeys hp hq hkey]
  · exact (mergePage_comm hkey st).symm

end merging
section fetching

structure ProviderCoords where
  address : String
  «namespace» : String
  name : String
  version : String

structure IndexDocEntry where
  id : String
  category : String
  slug : String
  language : String

abbrev ProviderDocIndex := KeyedMap String String

/-- Variants of a page in other languages would displace it. -/
def indexEntries (docs : List IndexDocEntry) : ProviderDocIndex :=
  docs.foldl (fun entries d =>
    if !d.language.isEmpty && d.language ≠ "hcl" then entries
    else if d.category ≠ "resources" && d.category ≠ "data-sources" then entries
    else entries.insert (d.category ++ ":" ++ d.slug) d.id) ∅

def ProviderDocIndex.get (index : ProviderDocIndex) (kind : DocKind) (slug : String) :
    Option String :=
  match kind with
  | .resource => AList.lookup ("resources:" ++ slug) index
  | .dataSource => AList.lookup ("data-sources:" ++ slug) index

def stripProviderPrefix (providerName typeName : String) : Option String :=
  if (providerName ++ "_").toList.isPrefixOf typeName.toList then
    some (String.ofList (typeName.toList.drop (providerName ++ "_").toList.length))
  else none

/-- A page to fetch. -/
structure Target where
  kind : DocKind
  typeName : String
  id : String

def Target.key (t : Target) : DocKind × String := (t.kind,t.typeName)

def targetsOf (coords : ProviderCoords) (index : ProviderDocIndex) (s : ProviderSchema)
    (kind : DocKind) : List Target :=
  (s.schemas kind).entries.filterMap fun e =>
    if schemaHasMissingDescriptions e.2 then
      ((stripProviderPrefix coords.name e.1).bind (index.get kind)).map fun id => ⟨kind,e.1,id⟩
    else none

def targets (coords : ProviderCoords) (index : ProviderDocIndex) (s : ProviderSchema) :
    List Target :=
  targetsOf coords index s .resource ++ targetsOf coords index s .dataSource

structure ParsedDocsCache where
  cacheVersion : ℕ
  «namespace» : String
  name : String
  version : String
  resources : KeyedMap String TypeDocs
  dataSources : KeyedMap String TypeDocs

def parsedCacheVersion : ℕ := 2

def pagesOf (kind : DocKind) (docs : KeyedMap String TypeDocs) : List Page :=
  docs.entries.map fun e => ⟨kind,e.1,e.2⟩

namespace ParsedDocsCache

def new (coords : ProviderCoords) : ParsedDocsCache :=
  ⟨parsedCacheVersion,coords.namespace,coords.name,coords.version,∅,∅⟩

def insert (cache : ParsedDocsCache) (p : Page) : ParsedDocsCache :=
  match p.kind with
  | .resource => { cache with resources := AList.insert p.typeName p.docs cache.resources }
  | .dataSource => { cache with dataSources := AList.insert p.typeName p.docs cache.dataSources }

def isEmpty (cache : ParsedDocsCache) : Bool :=
  cache.resources.entries.isEmpty && cache.dataSources.entries.isEmpty

/-- The pages of the file, those of resources first. -/
def pages (cache : ParsedDocsCache) : List Page :=
  pagesOf .resource cache.resources ++ pagesOf .dataSource cache.dataSources

end ParsedDocsCache

/-- What the registry answers while one provider is documented, and in which order the
pages arrive. The file may turn out not to be writable. -/
structure Answers where
  index : Option (List IndexDocEntry)
  content : String → Option String
  arrival : List Target → List Target
  arrival_perm : ∀ ts, (arrival ts).Perm ts
  writable : Bool

-- the parser of pages
variable (parseAttributeDescriptions : String → TypeDocs)

structure Receiving where
  merged : ProviderSchema × ℕ
  cacheEntry : ParsedDocsCache

def receive (answers : Answers) (st : Receiving) (t : Target) : Receiving :=
  match answers.content t.id with
  | none => st
  | some content =>
    let page : Page := ⟨t.kind,t.typeName,parseAttributeDescriptions content⟩
    if page.docs.entries.isEmpty then st
    else if ((st.merged.1.schemas t.kind).lookup t.typeName).isNone then st
    else ⟨mergePage st.merged page,st.cacheEntry.insert page⟩

def enrichFromRegistry (coords : ProviderCoords) (answers : Answers) (s : ProviderSchema) :
    Receiving :=
  match answers.index with
  | none => ⟨(s,0),.new coords⟩
  | some docs => (answers.arrival (targets coords (indexEntries docs) s)).foldl
      (receive parseAttributeDescriptions answers) ⟨(s,0),.new coords⟩

def enrichFromCache (cache : ParsedDocsCache) (s : ProviderSchema) : ProviderSchema × ℕ :=
  cache.pages.foldl mergePage (s,0)

theorem pagesOf_insert {kind : DocKind} {docs : KeyedMap String TypeDocs} {name : String}
    (h : (kind,name) ∉ (pagesOf kind docs).map Page.key) (page : TypeDocs) :
    pagesOf kind (AList.insert name page docs) = ⟨kind,name,page⟩ :: pagesOf kind docs := by
  have hkept : docs.entries.filter (fun e => e.1 ≠ name) = docs.entries := by
    refine List.filter_eq_self.mpr fun e he => decide_eq_true fun hname => h ?_
    rw [pagesOf,List.map_map]
    exact List.mem_map.mpr ⟨e,he,by rw [← hname]; rfl⟩
  rw [pagesOf,KeyedMap.entries_insert,hkept]
  rfl

theorem pages_insert {cache : ParsedDocsCache} {p : Page} (h : p.key ∉ cache.pages.map Page.key) :
    (cache.insert p).pages.Perm (p :: cache.pages) := by
  obtain ⟨kind,name,docs⟩ := p
  rw [ParsedDocsCache.pages,List.map_append,List.mem_append,not_or] at h
  cases kind with
  | resource =>
    rw [ParsedDocsCache.pages,ParsedDocsCache.insert,pagesOf_insert h.1]
    rfl
  | dataSource =>
    rw [ParsedDocsCache.pages,ParsedDocsCache.insert,pagesOf_insert h.2]
    exact List.perm_middle

/-- A fetched page is passed over, or both merged and kept. -/
theorem receive_cases (answers : Answers) (st : Receiving) (t : Target) :
    receive parseAttributeDescriptions answers st t = st ∨
      ∃ p : Page, p.key = t.key ∧ receive parseAttributeDescriptions answers st t =
        ⟨mergePage st.merged p,st.cacheEntry.insert p⟩ := by
  unfold receive
  cases answers.content t.id with
  | none => exact .inl rfl
  | some content =>
    dsimp only
    split_ifs
    · exact .inl rfl
    · exact .inl rfl
    · exact .inr ⟨_,rfl,rfl⟩

/-- The pages merged are the pages kept, in the order of their arrival. -/
theorem receive_pages (answers : Answers) {ts : List Target} (hkeys : (ts.map Target.key).Nodup)
    (st : Receiving) (hnew : ∀ t ∈ ts, t.key ∉ st.cacheEntry.pages.map Page.key) :
    ∃ ps : List Page, (ps.map Page.key).Sublist (ts.map Target.key) ∧
      (ts.foldl (receive parseAttributeDescriptions answers) st).merged =
        ps.foldl mergePage st.merged ∧
      (ts.foldl (receive parseAttributeDescriptions answers) st).cacheEntry.pages.Perm
        (ps ++ st.cacheEntry.pages) := by
  induction ts generalizing st with
  | nil => exact ⟨[],List.Sublist.refl _,rfl,List.Perm.refl _⟩
  | cons t ts ih =>
    obtain ⟨ht,hkeys'⟩ := List.nodup_cons.mp hkeys
    have hnew' := fun u hu => hnew u (List.mem_cons_of_mem t hu)
    rw [List.foldl_cons]
    rcases receive_cases parseAttributeDescriptions answers st t with hskip | ⟨p,hkey,hmerge⟩
    · rw [hskip]
      obtain ⟨ps,hsub,hmerged,hpages⟩ := ih hkeys' st hnew'
      exact ⟨ps,hsub.cons t.key,hmerged,hpages⟩
    · have hp : p.key ∉ st.cacheEntry.pages.map Page.key := hkey ▸ hnew t List.mem_cons_self
      have hinsert := pages_insert hp
      have hnew'' : ∀ u ∈ ts, u.key ∉ (st.cacheEntry.insert p).pages.map Page.key := by
        intro u hu hmem
        rcases List.mem_cons.mp ((hinsert.map Page.key).mem_iff.mp hmem) with hup | hold
        · exact ht (hkey ▸ hup ▸ List.mem_map_of_mem hu)
        · exact hnew' u hu hold
      rw [hmerge]
      obtain ⟨ps,hsub,hmerged,hpages⟩ := ih hkeys' ⟨mergePage st.merged p,st.cacheEntry.insert p⟩ hnew''
      refine ⟨p :: ps,?_,hmerged,hpages.trans ?_⟩
      · rw [List.map_cons,List.map_cons,hkey]
        exact hsub.cons_cons t.key
      · exact (hinsert.append_left ps).trans List.perm_middle

theorem targetsOf_keys (coords : ProviderCoords) (index : ProviderDocIndex) (s : ProviderSchema)
    (kind : DocKind) :
    ((targetsOf coords index s kind).map Target.key).Sublist
      ((s.schemas kind).entries.keys.map fun name => (kind,name)) := by
  rw [targetsOf,List.keys,List.map_map]
  induction (s.schemas kind).entries with
  | nil => exact List.Sublist.refl _
  | cons e es ih =>
    rw [List.filterMap_cons]
    split
    · exact ih.cons _
    · rename_i t ht
      have hkey : t.key = (kind,e.1) := by
        split_ifs at ht
        obtain ⟨id,-,rfl⟩ := Option.map_eq_some_iff.mp ht
        rfl
      rw [List.map_cons,List.map_cons,hkey]
      exact ih.cons_cons _

theorem targets_keys (coords : ProviderCoords) (index : ProviderDocIndex) (s : ProviderSchema) :
    ((targets coords index s).map Target.key).Nodup := by
  have hkind : ∀ kind, ((targetsOf coords index s kind).map Target.key).Nodup := fun kind =>
    (((s.schemas kind).nodupKeys).map (Prod.mk_right_injective kind)).sublist
      (targetsOf_keys coords index s kind)
  rw [targets,List.map_append]
  refine (hkind .resource).append (hkind .dataSource) fun key hr hd => ?_
  obtain ⟨_,-,rfl⟩ := List.mem_map.mp ((targetsOf_keys coords index s .resource).subset hr)
  obtain ⟨_,-,h⟩ := List.mem_map.mp ((targetsOf_keys coords index s .dataSource).subset hd)
  cases h

/-- The file written reproduces the pass that wrote it, whatever arrived in which order. -/
theorem enrichFromCache_written (coords : ProviderCoords) (answers : Answers) (s : ProviderSchema) :
    enrichFromCache (enrichFromRegistry parseAttributeDescriptions coords answers s).cacheEntry s =
      (enrichFromRegistry parseAttributeDescriptions coords answers s).merged := by
  rw [enrichFromRegistry]
  cases answers.index with
  | none => rfl
  | some docs =>
    have hkeys : ((answers.arrival (targets coords (indexEntries docs) s)).map Target.key).Nodup :=
      ((answers.arrival_perm _).map Target.key).nodup_iff.mpr (targets_keys coords _ s)
    obtain ⟨ps,hsub,hmerged,hpages⟩ := receive_pages parseAttributeDescriptions answers hkeys
      ⟨(s,0),.new coords⟩ (fun _ _ => List.not_mem_nil)
    have hps : (ps ++ (ParsedDocsCache.new coords).pages) = ps := List.append_nil ps
    rw [hps] at hpages
    dsimp only
    rw [enrichFromCache,hmerged,mergePages_perm hpages.symm (hkeys.sublist hsub)]

end fetching
section passes

variable (C : CharClass) (env : CacheHome) (parseAttributeDescriptions : String → TypeDocs)

def parsedCachePath (coords : ProviderCoords) : Path :=
  (env.cacheRoot "provider-docs").walk [sanitise C coords.namespace,sanitise C coords.name,
    sanitise C coords.version,"parsed-descriptions.json"]

/-- A provider whose schema is to be documented. -/
structure Turn where
  coords : ProviderCoords
  schema : ProviderSchema

structure Ended where
  turn : Turn
  cacheHit : Bool
  result : ProviderSchema × ℕ

/-- The parsed files, the turns that found none and are fetching, and the turns that have
ended, the last one first. -/
structure Passes where
  files : KeyedMap Path ParsedDocsCache := ∅
  fetching : List Turn := []
  ended : List Ended := []

def readParsedCache (files : KeyedMap Path ParsedDocsCache) (path : Path) : Option ParsedDocsCache :=
  (files.lookup path).filter fun parsed => parsed.cacheVersion = parsedCacheVersion

inductive PassStep
  | look (turn : Turn)
  | finish (i : ℕ) (answers : Answers)

namespace Passes

/-- Passes run side by side: between the look of one of its turns and its end, others may
look, fetch and write. -/
def step (s : Passes) : PassStep → Passes
  | .look turn =>
    match readParsedCache s.files (parsedCachePath C env turn.coords) with
    | some cached => { s with ended := ⟨turn,true,enrichFromCache cached turn.schema⟩ :: s.ended }
    | none => { s with fetching := s.fetching ++ [turn] }
  | .finish i answers =>
    match s.fetching[i]? with
    | none => s
    | some turn =>
      let r := enrichFromRegistry parseAttributeDescriptions turn.coords answers turn.schema
      { files :=
          if !r.cacheEntry.isEmpty && answers.writable then
            s.files.insert (parsedCachePath C env turn.coords) r.cacheEntry
          else s.files
        fetching := s.fetching.eraseIdx i
        ended := ⟨turn,false,r.merged⟩ :: s.ended }

/-- A turn that fetched and left the file. -/
def Wrote (s : Passes) (path : Path) (file : ParsedDocsCache) : Prop :=
  ∃ w ∈ s.ended, w.cacheHit = false ∧ parsedCachePath C env w.turn.coords = path ∧
    w.result = enrichFromCache file w.turn.schema

/-- Every file was left by a turn, and every hit read a file that was left before. -/
structure Accounted (s : Passes) : Prop where
  files : ∀ path file, s.files.lookup path = some file → s.Wrote C env path file
  hits : ∀ e ∈ s.ended, e.cacheHit = true → ∃ file, e.result = enrichFromCache file e.turn.schema ∧
    s.Wrote C env (parsedCachePath C env e.turn.coords) file

variable {C env}

theorem Wrote.mono {s s' : Passes} {path : Path} {file : ParsedDocsCache}
    (h : s.Wrote C env path file) (hsub : s.ended ⊆ s'.ended) : s'.Wrote C env path file := by
  obtain ⟨w,hw,hrest⟩ := h
  exact ⟨w,hsub hw,hrest⟩

theorem accounted_step (s : Passes) (a : PassStep) (h : s.Accounted C env) :
    (s.step C env parseAttributeDescriptions a).Accounted C env := by
  cases a with
  | look turn =>
    rw [step]
    split
    · rename_i cached hread
      have hfile := (Option.filter_eq_some_iff.mp hread).1
      refine ⟨fun path file hf => (h.files path file hf).mono (List.subset_cons_self _ _),?_⟩
      intro e he hit
      rcases List.mem_cons.mp he with rfl | he
      · exact ⟨cached,rfl,(h.files _ _ hfile).mono (List.subset_cons_self _ _)⟩
      · obtain ⟨file,hresult,hwrote⟩ := h.hits e he hit
        exact ⟨file,hresult,hwrote.mono (List.subset_cons_self _ _)⟩
    · exact ⟨h.files,h.hits⟩
  | finish i answers =>
    rw [step]
    split
    · exact h
    · rename_i turn hturn
      refine ⟨fun path file hf => ?_,fun e he hit => ?_⟩
      · dsimp only at hf
        split at hf
        · rw [KeyedMap.lookup_insert_of] at hf
          split at hf
          · rename_i hpath
            cases hf
            refine ⟨_,List.mem_cons_self,rfl,hpath.symm,?_⟩
            exact (enrichFromCache_written parseAttributeDescriptions turn.coords answers
              turn.schema).symm
          · exact (h.files path file hf).mono (List.subset_cons_self _ _)
        · exact (h.files path file hf).mono (List.subset_cons_self _ _)
      · rcases List.mem_cons.mp he with rfl | he
        · cases hit
        · obtain ⟨file,hresult,hwrote⟩ := h.hits e he hit
          exact ⟨file,hresult,hwrote.mono (List.subset_cons_self _ _)⟩

theorem accounted_run (as : List PassStep) :
    (run (step C env parseAttributeDescriptions) {} as).Accounted C env := by
  have hstart : ({} : Passes).Accounted C env :=
    ⟨fun _ _ h => by simp at h,fun _ he => absurd he List.not_mem_nil⟩
  exact (throughout_of_step (fun a _ s => accounted_step parseAttributeDescriptions s a) hstart).final

end Passes

def nullTurn : Turn where
  coords := ⟨"registry.terraform.io/hashicorp/null","hashicorp","null","3.2.1"⟩
  schema := ⟨⟨0,.default⟩,∅,.mk [⟨"null_data_source",0,.mk (.mk [⟨"inputs",{}⟩] (by simp)) [] none none
    false⟩] (by simp)⟩

def nullAnswers : Answers where
  index := some [⟨"17","data-sources","data_source",""⟩]
  content := some
  arrival ts := ts.reverse
  arrival_perm := List.reverse_perm
  writable := true

def idPages (content : String) : TypeDocs := .mk [⟨"inputs",content,none⟩] (by simp)

/-- The second turn looks before the first has written. -/
def overlappingTurns : List PassStep :=
  [.look nullTurn,.look nullTurn,.finish 1 nullAnswers,.look nullTurn,.finish 0 nullAnswers]

def overlapped : Passes := run (Passes.step asciiClass homeCaches idPages) {} overlappingTurns

theorem overlapped_hit : (overlapped.ended[1]?.map Ended.cacheHit) = some true := by decide

end passes
end RegistryDocs
end TerraformLs
