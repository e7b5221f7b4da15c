import TerraformLs.PathSpellings
import TerraformLs.RegistryDocs

/-! Schemas installed by fetches and installed again, once they are documented, by tasks
that the fetches leave behind. -/
namespace TerraformLs
namespace SchemaInstalls

open ProviderSchemas RegistryDocs PathSpellings

section bareness

/-- Without what documentation may fill in. -/
def bareAttribute (a : AttributeSchema) : AttributeSchema :=
  { a with description := none, allowedValues := none }

def bareBlock : BlockSchema → BlockSchema
  | .mk attributes blockTypes description descriptionKind deprecated =>
    .mk (attributes.mapValues fun _ => bareAttribute) blockTypes description descriptionKind deprecated

def bareSchema (s : Schema) : Schema := { s with block := bareBlock s.block }

def bare (s : ProviderSchema) : ProviderSchema where
  provider := s.provider
  resourceSchemas := s.resourceSchemas.mapValues fun _ => bareSchema
  dataSourceSchemas := s.dataSourceSchemas.mapValues fun _ => bareSchema

theorem filled_bare (docs : TypeDocs) (name : String) (attr : AttributeSchema) :
    bareAttribute (filled docs name attr) = bareAttribute attr := by
  rw [filled]
  split <;> rfl

theorem merged_bare (docs : TypeDocs) (block : BlockSchema) :
    bareBlock (mergeDescriptionsIntoBlock docs block).1 = bareBlock block := by
  obtain ⟨attributes,blockTypes,description,descriptionKind,deprecated⟩ := block
  rw [mergeDescriptionsIntoBlock,bareBlock,bareBlock,KeyedMap.mapValues_mapValues,
    KeyedMap.mapValues_congr (filled_bare docs)]

theorem updateAt_bare (name : String) (docs : TypeDocs) (schemas : KeyedMap String Schema) :
    (KeyedMap.updateAt name (fun schema : Schema =>
      { schema with block := (mergeDescriptionsIntoBlock docs schema.block).1 }) schemas).mapValues
        (fun _ => bareSchema) = schemas.mapValues fun _ => bareSchema := by
  rw [KeyedMap.updateAt,KeyedMap.mapValues_mapValues]
  refine KeyedMap.mapValues_congr (fun j schema => ?_) schemas
  split
  · rw [bareSchema,bareSchema,merged_bare]
  · rfl

theorem describe_bare (s : ProviderSchema) (p : Page) : bare (s.describe p) = bare s := by
  obtain ⟨kind,name,docs⟩ := p
  cases kind with
  | resource =>
    rw [ProviderSchema.describe,ProviderSchema.change,bare,updateAt_bare]
    rfl
  | dataSource =>
    rw [ProviderSchema.describe,ProviderSchema.change,bare,updateAt_bare]
    rfl

theorem mergePages_bare (ps : List Page) (st : ProviderSchema × ℕ) :
    bare (ps.foldl mergePage st).1 = bare st.1 := by
  induction ps generalizing st with
  | nil => rfl
  | cons p ps ih => rw [List.foldl_cons,ih,mergePage,describe_bare]

variable (parseAttributeDescriptions : String → TypeDocs)

theorem receive_bare (answers : Answers) (ts : List Target) (st : Receiving) :
    bare (ts.foldl (receive parseAttributeDescriptions answers) st).merged.1 = bare st.merged.1 := by
  induction ts generalizing st with
  | nil => rfl
  | cons t ts ih =>
    rw [List.foldl_cons,ih]
    rcases receive_cases parseAttributeDescriptions answers st t with hskip | ⟨p,-,hmerge⟩
    · rw [hskip]
    · rw [hmerge,mergePage,describe_bare]

/-- Where the documentation of a provider is found. -/
inductive DocSource
  | cache (parsed : ParsedDocsCache)
  | registry (answers : Answers)

def enrichProvider (coords : ProviderCoords) (source : DocSource) (s : ProviderSchema) :
    ProviderSchema × ℕ :=
  match source with
  | .cache parsed => enrichFromCache parsed s
  | .registry answers => (enrichFromRegistry parseAttributeDescriptions coords answers s).merged

theorem enrichProvider_bare (coords : ProviderCoords) (source : DocSource) (s : ProviderSchema) :
    bare (enrichProvider parseAttributeDescriptions coords source s).1 = bare s := by
  cases source with
  | cache parsed => exact mergePages_bare parsed.pages (s,0)
  | registry answers =>
    rw [enrichProvider,enrichFromRegistry]
    split
    · rfl
    · exact receive_bare parseAttributeDescriptions answers _ _

abbrev RawSchemas := KeyedMap String ProviderSchema

def enrichSchemasWithRegistryDocs (schemas : RawSchemas) (providers : List ProviderCoords)
    (sources : ProviderCoords → DocSource) : RawSchemas × ℕ :=
  providers.foldl (fun st coords =>
    match AList.lookup coords.address st.1 with
    | none => st
    | some s =>
      let r := enrichProvider parseAttributeDescriptions coords (sources coords) s
      (KeyedMap.updateAt coords.address (fun _ => r.1) st.1,st.2+r.2)) (schemas,0)

/-- Enrichment only fills in documentation. -/
theorem enrichSchemas_bare (schemas : RawSchemas) (providers : List ProviderCoords)
    (sources : ProviderCoords → DocSource) (key : String) :
    (AList.lookup key (enrichSchemasWithRegistryDocs parseAttributeDescriptions schemas providers
      sources).1).map bare = (AList.lookup key schemas).map bare := by
  rw [enrichSchemasWithRegistryDocs]
  generalize 0 = n
  induction providers generalizing schemas n with
  | nil => rfl
  | cons coords providers ih =>
    rw [List.foldl_cons]
    split
    · exact ih schemas n
    · rename_i s hs
      rw [ih]
      by_cases hkey : key = coords.address
      · subst hkey
        rw [KeyedMap.updateAt,KeyedMap.lookup_mapValues,hs]
        simp only [if_true,Option.map_some,enrichProvider_bare]
      · rw [KeyedMap.lookup_updateAt_ne hkey]

end bareness
section installs

structure RawPluginSchemas where
  schemas : RawSchemas
  coords : List ProviderCoords

/-- A schema to install again, with what the fetch had returned under its key. -/
structure Reinstall where
  rawKey : String
  returned : Option ProviderSchema
  schema : ProviderSchema

/-- The table of schemas, what the fetch at work has still to do, the enrichments that are
under way and those that have come back. `fetched` is what a fetch installed last. -/
structure SchemaStore where
  schemas : KeyedMap ProviderAddress ProviderSchema
  fetched : KeyedMap ProviderAddress ProviderSchema
  installing : List (String × ProviderSchema) := []
  spawning : Option RawPluginSchemas := none
  enriching : List RawPluginSchemas := []
  reinstalling : List (List Reinstall) := []

inductive InstallStep
  | fetchPlugins (raw : RawPluginSchemas)
  | fetchCli (schemas : RawSchemas)
  | install
  | enrich (i : ℕ) (sources : Option (ProviderCoords → DocSource))
  | reinstall (i : ℕ)

/-- Keys that are no address are skipped. -/
def installSchema (schemas : KeyedMap ProviderAddress ProviderSchema) (rawKey : String)
    (schema : ProviderSchema) : KeyedMap ProviderAddress ProviderSchema :=
  match ProviderAddress.parse rawKey with
  | some addr => schemas.insert addr schema
  | none => schemas

def toInstall (schemas : RawSchemas) : List (String × ProviderSchema) :=
  schemas.entries.map fun e => (e.1,e.2)

def toReinstall (raw enriched : RawSchemas) : List Reinstall :=
  enriched.entries.map fun e => ⟨e.1,AList.lookup e.1 raw,e.2⟩

variable (parseAttributeDescriptions : String → TypeDocs)

namespace SchemaStore

def idle (s : SchemaStore) : Bool := s.installing.isEmpty && s.spawning.isNone

/-- One worker runs the fetches. The enrichments run beside it, and install one schema
after another. -/
def step (s : SchemaStore) : InstallStep → SchemaStore
  | .fetchPlugins raw =>
    if s.idle && !raw.schemas.entries.isEmpty then
      { s with installing := toInstall raw.schemas, spawning := some raw }
    else s
  | .fetchCli schemas => if s.idle then { s with installing := toInstall schemas } else s
  | .install =>
    match s.installing,s.spawning with
    | (rawKey,schema)::rest,_ => { s with
        schemas := installSchema s.schemas rawKey schema
        fetched := installSchema s.fetched rawKey schema
        installing := rest }
    | [],some raw => { s with spawning := none, enriching := s.enriching ++ [raw] }
    | [],none => s
  | .enrich i sources =>
    match s.enriching[i]?,sources with
    | none,_ => s
    -- There is no client to ask the registry with.
    | some _,none => { s with enriching := s.enriching.eraseIdx i }
    | some raw,some sources =>
      let r := enrichSchemasWithRegistryDocs parseAttributeDescriptions raw.schemas raw.coords sources
      if r.2 = 0 then { s with enriching := s.enriching.eraseIdx i }
      else { s with
        enriching := s.enriching.eraseIdx i
        reinstalling := s.reinstalling ++ [toReinstall raw.schemas r.1] }
  | .reinstall i =>
    match s.reinstalling[i]? with
    | some (r::rest) => { s with
        schemas := installSchema s.schemas r.rawKey r.schema
        reinstalling := s.reinstalling.set i rest }
    | _ => s

/-- At the start the built-in schemas are installed. -/
def start (builtin : KeyedMap ProviderAddress ProviderSchema) : SchemaStore where
  schemas := builtin
  fetched := builtin

/-- Up to their documentation, the schemas installed are those fetched last. -/
def AsFetched (s : SchemaStore) : Prop :=
  ∀ addr, (AList.lookup addr s.schemas).map bare = (AList.lookup addr s.fetched).map bare

/-- A schema is only installed again while what was fetched last for its provider is, up to
documentation, what it was made from. -/
def Timely (s : SchemaStore) : InstallStep → Prop
  | .reinstall i => ∀ r rest, s.reinstalling[i]? = some (r :: rest) → ∀ addr,
      ProviderAddress.parse r.rawKey = some addr →
        r.returned.map bare = (AList.lookup addr s.fetched).map bare
  | _ => True

/-- Schemas on their way are, up to documentation, what the fetches had returned. -/
def Derived (s : SchemaStore) : Prop :=
  ∀ rs ∈ s.reinstalling, ∀ r ∈ rs, r.returned.map bare = some (bare r.schema)

theorem lookup_installSchema (m : KeyedMap ProviderAddress ProviderSchema) (rawKey : String)
    (schema : ProviderSchema) (addr : ProviderAddress) :
    (installSchema m rawKey schema).lookup addr =
      if ProviderAddress.parse rawKey = some addr then some schema else m.lookup addr := by
  unfold installSchema
  split
  · rename_i a ha
    rw [KeyedMap.lookup_insert_of]
    simp only [ha,Option.some_inj,eq_comm]
  · rename_i hnone
    simp [hnone]

theorem derived_toReinstall (raw : RawPluginSchemas) (sources : ProviderCoords → DocSource) :
    ∀ r ∈ toReinstall raw.schemas (enrichSchemasWithRegistryDocs parseAttributeDescriptions
      raw.schemas raw.coords sources).1, r.returned.map bare = some (bare r.schema) := by
  intro r hr
  obtain ⟨⟨key,schema⟩,he,rfl⟩ := List.mem_map.mp hr
  have hbare := enrichSchemas_bare parseAttributeDescriptions raw.schemas raw.coords sources key
  rw [KeyedMap.mem_entries.mp he] at hbare
  exact hbare.symm

theorem derived_step (s : SchemaStore) (a : InstallStep) (h : s.Derived) :
    (s.step parseAttributeDescriptions a).Derived := by
  cases a with
  | fetchPlugins raw =>
    rw [step]
    split
    · exact h
    · exact h
  | fetchCli schemas =>
    rw [step]
    split
    · exact h
    · exact h
  | install =>
    rw [step]
    split
    · exact h
    · exact h
    · exact h
  | enrich i sources =>
    unfold step
    dsimp only
    split
    · exact h
    · exact h
    · rename_i raw sources hraw
      split
      · exact h
      · intro rs hrs
        rcases List.mem_append.mp hrs with hrs | hrs
        · exact h rs hrs
        · rw [List.mem_singleton.mp hrs]
          exact derived_toReinstall parseAttributeDescriptions raw sources
  | reinstall i =>
    rw [step]
    split
    · rename_i r rest hi
      intro rs hrs
      rcases List.mem_or_eq_of_mem_set hrs with hrs | rfl
      · exact h rs hrs
      · exact fun r' hr' => h _ (List.mem_of_getElem? hi) r' (List.mem_cons_of_mem r hr')
    · exact h

/-- A step that leaves both tables alone leaves them in agreement. -/
theorem asFetched_of_tables {s s' : SchemaStore} (hs : s'.schemas = s.schemas)
    (hf : s'.fetched = s.fetched) (h : s.AsFetched) : s'.AsFetched := by
  intro addr
  rw [hs,hf]
  exact h addr

theorem asFetched_step (s : SchemaStore) (a : InstallStep) (hderived : s.Derived)
    (h : s.AsFetched) : (s.step parseAttributeDescriptions a).AsFetched ↔ s.Timely a := by
  cases a with
  | reinstall i =>
    rw [step]
    split
    · rename_i r rest hi
      have hr := hderived _ (List.mem_of_getElem? hi) r List.mem_cons_self
      constructor
      · intro h' r' rest' hi' addr hparse
        cases hi.symm.trans hi'
        have haddr := h' addr
        dsimp only at haddr
        rw [lookup_installSchema,if_pos hparse,Option.map_some] at haddr
        exact hr.trans haddr
      · intro htimely addr
        dsimp only
        rw [lookup_installSchema]
        split
        · rename_i hparse
          rw [Option.map_some,← hr]
          exact htimely r rest hi addr hparse
        · exact h addr
    · rename_i hnone
      exact ⟨fun _ r rest hi => absurd hi (hnone r rest),fun _ => h⟩
  | fetchPlugins raw =>
    refine iff_of_true ?_ trivial
    rw [step]
    split
    · exact asFetched_of_tables rfl rfl h
    · exact h
  | fetchCli schemas =>
    refine iff_of_true ?_ trivial
    rw [step]
    split
    · exact asFetched_of_tables rfl rfl h
    · exact h
  | install =>
    refine iff_of_true ?_ trivial
    rw [step]
    split
    · intro addr
      dsimp only
      rw [lookup_installSchema,lookup_installSchema]
      split
      · rfl
      · exact h addr
    · exact asFetched_of_tables rfl rfl h
    · exact h
  | enrich i sources =>
    refine iff_of_true ?_ trivial
    unfold step
    dsimp only
    split
    · exact h
    · exact asFetched_of_tables rfl rfl h
    · split <;> exact asFetched_of_tables rfl rfl h

end SchemaStore

/-- In all orders of the installs of fetches and enrichments: up to documentation every
schema stays the one fetched last for its provider exactly if no enrichment installs a schema
again after a fetch has brought a different one for that provider. -/
theorem asFetched_throughout_iff (builtin : KeyedMap ProviderAddress ProviderSchema)
    (as : List InstallStep) :
    Throughout (SchemaStore.step parseAttributeDescriptions) SchemaStore.AsFetched (.start builtin) as ↔
      Guarded (SchemaStore.step parseAttributeDescriptions) SchemaStore.Timely (.start builtin) as := by
  refine throughout_iff_guarded
    (fun a _ s => SchemaStore.derived_step parseAttributeDescriptions s a)
    (fun s a => SchemaStore.asFetched_step parseAttributeDescriptions s a) ?_ fun _ => rfl
  exact fun rs hrs => absurd hrs List.not_mem_nil

end installs
end SchemaInstalls
end TerraformLs
