import TerraformLs.CacheLookups

/-! The cache targets that are fetched ahead for a document, beside those that its
rules look up. -/
namespace TerraformLs
namespace CacheLookups
namespace Prefetch

open GitRefs RegistryVersions

section collect

/-- Everything behind the second slash belongs to the last part. -/
def parseProviderSource (s : String) : Option (Rope × Rope) :=
  match splitOnce '/' (trim s.toList) with
  | (_,none) => none
  | (a,some rest) =>
    match splitOnce '/' rest with
    | (b,none) => some (a,b)
    | (b,some c) => some (b,c)

def parseModuleSource (s : String) : Option (Rope × Rope × Rope) :=
  if isLocalOrUrl (trim s.toList) then none else
    match (trim s.toList).splitOn '/' with
    | [ns,name,provider] =>
      if ns ≠ [] ∧ name ≠ [] ∧ provider ≠ [] then some (ns,name,provider) else none
    | _ => none

def providerTarget (source : String) : Option WarmTarget :=
  (parseProviderSource source).map fun address => .provider address.1 address.2

/-- Every `source` of every entry counts. -/
def collectRequiredProviders (body : Body) : List WarmTarget :=
  (body.filterMap Structure.asAttribute).flatMap fun a =>
    match a.2 with
    | .object _ entries => ((entriesOf "source" entries).filterMap literalString).filterMap providerTarget
    | _ => []

def collectTerraform (body : Body) : List WarmTarget :=
  body.flatMap fun item =>
    match item with
    | .attribute key value =>
      if key = "required_version" ∧ (literalString value).isSome then [.terraformCli] else []
    | .block ident nested => if ident = "required_providers" then collectRequiredProviders nested else []

/-- The last `source` counts, and only if it has a text. -/
def lastSource (block : Body) : Option String :=
  (valuesOf "source" block).getLast?.bind literalString

def moduleTarget (source : String) : Option WarmTarget :=
  match parseModuleSource source with
  | some address => some (.module address.1 address.2.1 address.2.2)
  | none => if isGitSource source then repoKey source else none

def collectModule (body : Body) : List WarmTarget := ((lastSource body).bind moduleTarget).toList

def collectBodyTargets (body : Body) : List WarmTarget :=
  (body.filterMap Structure.asBlock).flatMap fun b =>
    if b.1 = "terraform" then collectTerraform b.2
    else if b.1 = "module" then collectModule b.2 else []

end collect

/-! What a source says about its host. -/

def segments (s : String) : List Rope := (trim s.toList).splitOn '/'

/-- A provider address of three parts or more begins with its host. -/
def providerHost (s : String) : Option Rope :=
  match segments s with
  | host::_::_::_ => some host
  | _ => none

/-- So does a module address of four, and a repository. -/
def moduleHost (s : String) : Option Rope :=
  if isGitSource s ∨ 4 ≤ (segments s).length then (segments s).head? else none

/-- There is no host, or it is a public registry. -/
def PublicHost (host : Option Rope) : Prop := ∀ h, host = some h → isPublicRegistryHost h

/-- The sources of the entries of `required_providers` that have a text. -/
def providerSources (body : Body) : List String :=
  (blocksOf "terraform" body).flatMap fun terraform =>
    (blocksOf "required_providers" terraform).flatMap fun providers =>
      (providers.filterMap Structure.asAttribute).flatMap fun a =>
        match a.2 with
        | .object _ entries => (entriesOf "source" entries).filterMap literalString
        | _ => []

/-! What is collected, by kind. -/

theorem mem_blocksOf {ident : String} {body nested : Body} :
    nested ∈ blocksOf ident body ↔ Structure.block ident nested ∈ body := by
  rw [blocksOf,List.mem_filterMap]
  constructor
  · rintro ⟨b,hb,hident⟩
    obtain ⟨item,hitem,hblock⟩ := List.mem_filterMap.mp hb
    cases item with
    | «attribute» key value => cases hblock
    | block ident' nested' =>
      cases hblock
      simp only [Option.ite_none_right_eq_some,Option.some.injEq] at hident
      obtain ⟨rfl,rfl⟩ := hident
      exact hitem
  · intro h
    exact ⟨(ident,nested),List.mem_filterMap.mpr ⟨_,h,rfl⟩,by simp⟩

/-- Both walks of a body handle the blocks of two kinds. -/
theorem mem_blocks {α : Type} {f g : Body → List α} {body : Body} {x : α} :
    x ∈ (body.filterMap Structure.asBlock).flatMap (fun b => if b.1 = "terraform" then f b.2
      else if b.1 = "module" then g b.2 else []) ↔
    (∃ block ∈ blocksOf "terraform" body, x ∈ f block) ∨
      ∃ block ∈ blocksOf "module" body, x ∈ g block := by
  rw [List.mem_flatMap]
  constructor
  · rintro ⟨b,hb,hx⟩
    obtain ⟨item,hitem,hblock⟩ := List.mem_filterMap.mp hb
    cases item with
    | «attribute» key value => cases hblock
    | block ident nested =>
      cases hblock
      split_ifs at hx with hterraform hmodule
      · exact .inl ⟨nested,mem_blocksOf.mpr (hterraform ▸ hitem),hx⟩
      · exact .inr ⟨nested,mem_blocksOf.mpr (hmodule ▸ hitem),hx⟩
      · cases hx
  · rintro (⟨block,hblock,hx⟩ | ⟨block,hblock,hx⟩)
    · exact ⟨("terraform",block),List.mem_filterMap.mpr ⟨_,mem_blocksOf.mp hblock,rfl⟩,by simpa using hx⟩
    · exact ⟨("module",block),List.mem_filterMap.mpr ⟨_,mem_blocksOf.mp hblock,rfl⟩,by simpa using hx⟩

theorem mem_collectRequiredProviders {body : Body} {key : WarmTarget} :
    key ∈ collectRequiredProviders body ↔ ∃ a ∈ body.filterMap Structure.asAttribute,
      ∃ span entries, a.2 = .object span entries ∧
        ∃ s ∈ (entriesOf "source" entries).filterMap literalString, providerTarget s = some key := by
  rw [collectRequiredProviders,List.mem_flatMap]
  refine exists_congr fun a => and_congr_right fun _ => ?_
  cases hvalue : a.2 with
  | object span entries => simp
  | _ => simp

theorem mem_providerSources {body : Body} {s : String} :
    s ∈ providerSources body ↔ ∃ terraform ∈ blocksOf "terraform" body,
      ∃ providers ∈ blocksOf "required_providers" terraform,
        ∃ a ∈ providers.filterMap Structure.asAttribute, ∃ span entries,
          a.2 = .object span entries ∧ s ∈ (entriesOf "source" entries).filterMap literalString := by
  simp only [providerSources,List.mem_flatMap]
  refine exists_congr fun terraform => and_congr_right fun _ => exists_congr fun providers =>
    and_congr_right fun _ => exists_congr fun a => and_congr_right fun _ => ?_
  cases hvalue : a.2 with
  | object span entries => simp
  | _ => simp

theorem mem_collectTerraform {body : Body} {key : WarmTarget} : key ∈ collectTerraform body ↔
    (key = .terraformCli ∧ ∃ value, .attribute "required_version" value ∈ body ∧
      (literalString value).isSome) ∨
    ∃ providers ∈ blocksOf "required_providers" body, key ∈ collectRequiredProviders providers := by
  rw [collectTerraform,List.mem_flatMap]
  constructor
  · rintro ⟨item,hitem,hkey⟩
    cases item with
    | «attribute» name value =>
      simp only at hkey
      split_ifs at hkey with hversion
      · obtain ⟨rfl,htext⟩ := hversion
        exact .inl ⟨List.mem_singleton.mp hkey,value,hitem,htext⟩
      · cases hkey
    | block ident nested =>
      simp only at hkey
      split_ifs at hkey with hproviders
      · exact .inr ⟨nested,mem_blocksOf.mpr (hproviders ▸ hitem),hkey⟩
      · cases hkey
  · rintro (⟨rfl,value,hitem,htext⟩ | ⟨providers,hproviders,hkey⟩)
    · exact ⟨_,hitem,by simp [htext]⟩
    · exact ⟨_,mem_blocksOf.mp hproviders,by simpa using hkey⟩

theorem mem_collect_provider {body : Body} {ns name : Rope} :
    .provider ns name ∈ collectBodyTargets body ↔
      ∃ s ∈ providerSources body, parseProviderSource s = some (ns,name) := by
  have htarget : ∀ s, providerTarget s = some (.provider ns name) ↔
      parseProviderSource s = some (ns,name) := fun s => by
    rw [providerTarget,Option.map_eq_some_iff]
    constructor
    · rintro ⟨⟨a,b⟩,hparse,heq⟩
      cases heq
      exact hparse
    · exact fun h => ⟨_,h,rfl⟩
  have hmodule : ∀ block, WarmTarget.provider ns name ∉ collectModule block := fun block h => by
    rw [collectModule,Option.mem_toList] at h
    obtain ⟨s,-,hs⟩ := Option.bind_eq_some_iff.mp h
    rw [moduleTarget] at hs
    split at hs
    · cases hs
    · split_ifs at hs
      obtain ⟨url,-,hurl⟩ := Option.map_eq_some_iff.mp hs
      cases hurl
  simp only [collectBodyTargets,mem_blocks,hmodule,mem_collectTerraform,mem_collectRequiredProviders,
    mem_providerSources,htarget]
  simp only [reduceCtorEq,false_and,and_false,exists_false,or_false,false_or]
  constructor
  · rintro ⟨terraform,ht,providers,hp,a,ha,span,entries,hvalue,s,hs,hparse⟩
    exact ⟨s,⟨terraform,ht,providers,hp,a,ha,span,entries,hvalue,hs⟩,hparse⟩
  · rintro ⟨s,⟨terraform,ht,providers,hp,a,ha,span,entries,hvalue,hs⟩,hparse⟩
    exact ⟨terraform,ht,providers,hp,a,ha,span,entries,hvalue,s,hs,hparse⟩

/-- A terraform block holds no module and no repository. -/
theorem not_mem_collectTerraform {body : Body} {key : WarmTarget} (h : key ∈ collectTerraform body) :
    key = .terraformCli ∨ ∃ ns name, key = .provider ns name := by
  rcases mem_collectTerraform.mp h with ⟨rfl,-⟩ | ⟨providers,-,hkey⟩
  · exact .inl rfl
  · obtain ⟨a,-,span,entries,-,s,-,htarget⟩ := mem_collectRequiredProviders.mp hkey
    obtain ⟨address,-,heq⟩ := Option.map_eq_some_iff.mp htarget
    exact .inr ⟨address.1,address.2,heq.symm⟩

theorem mem_collect_module {body : Body} {ns name system : Rope} :
    .module ns name system ∈ collectBodyTargets body ↔ ∃ block ∈ blocksOf "module" body,
      ∃ s, lastSource block = some s ∧ parseModuleSource s = some (ns,name,system) := by
  rw [collectBodyTargets,mem_blocks]
  constructor
  · rintro (⟨block,-,hkey⟩ | ⟨block,hblock,hkey⟩)
    · rcases not_mem_collectTerraform hkey with h | ⟨_,_,h⟩ <;> cases h
    · rw [collectModule,Option.mem_toList] at hkey
      obtain ⟨s,hs,htarget⟩ := Option.bind_eq_some_iff.mp hkey
      refine ⟨block,hblock,s,hs,?_⟩
      rw [moduleTarget] at htarget
      split at htarget
      · rename_i address hparse
        cases htarget
        exact hparse
      · split_ifs at htarget
        obtain ⟨url,-,hurl⟩ := Option.map_eq_some_iff.mp htarget
        cases hurl
  · rintro ⟨block,hblock,s,hs,hparse⟩
    refine .inr ⟨block,hblock,?_⟩
    rw [collectModule,hs,Option.bind_some,moduleTarget,hparse]
    exact List.mem_singleton.mpr rfl

theorem mem_collect_repo {body : Body} {url : Rope} :
    .gitRepo url ∈ collectBodyTargets body ↔ ∃ block ∈ blocksOf "module" body,
      ∃ s, lastSource block = some s ∧ parseModuleSource s = none ∧ isGitSource s ∧
        normalizeGitUrl s = some url := by
  rw [collectBodyTargets,mem_blocks]
  constructor
  · rintro (⟨block,-,hkey⟩ | ⟨block,hblock,hkey⟩)
    · rcases not_mem_collectTerraform hkey with h | ⟨_,_,h⟩ <;> cases h
    · rw [collectModule,Option.mem_toList] at hkey
      obtain ⟨s,hs,htarget⟩ := Option.bind_eq_some_iff.mp hkey
      refine ⟨block,hblock,s,hs,?_⟩
      rw [moduleTarget] at htarget
      split at htarget
      · cases htarget
      · rename_i hparse
        split_ifs at htarget with hgit
        obtain ⟨url',hurl,heq⟩ := Option.map_eq_some_iff.mp htarget
        cases heq
        exact ⟨hparse,hgit,hurl⟩
  · rintro ⟨block,hblock,s,hs,hparse,hgit,hurl⟩
    refine .inr ⟨block,hblock,?_⟩
    rw [collectModule,hs,Option.bind_some,moduleTarget,hparse]
    simp [hgit,repoKey,hurl]

/-! The two readers of sources compared. -/

theorem splitOn_eq_splitOnce (c : Char) (s : Rope) :
    s.splitOn c = (splitOnce c s).1 :: ((splitOnce c s).2.map fun rest => rest.splitOn c).getD [] := by
  induction s with
  | nil => simp [splitOnce,List.splitOn_eq_singleton]
  | cons d s ih =>
    rw [List.splitOn_cons_eq_if_modifyHead]
    by_cases hd : d = c
    · subst hd
      simp [splitOnce]
    · have hne : (d == c) = false := by simpa using hd
      rw [if_neg (by simp [hne]),ih,List.modifyHead_cons]
      simp [splitOnce,hd]

theorem eq_of_splitOnce {c : Char} {s a : Rope} (h : splitOnce c s = (a,none)) : a = s := by
  obtain ⟨ha,hrest⟩ := Prod.mk.inj h
  have hnil : s.dropWhile (· ≠ c) = [] := by
    cases hdrop : s.dropWhile (· ≠ c) with
    | nil => rfl
    | cons d rest =>
      rw [hdrop] at hrest
      cases hrest
  have hs : s.takeWhile (· ≠ c) ++ s.dropWhile (· ≠ c) = s := List.takeWhile_append_dropWhile
  rw [ha,hnil,List.append_nil] at hs
  exact hs

theorem splitOnce_of_splitOn {c : Char} {s first : Rope} {rest : List Rope}
    (h : s.splitOn c = first :: rest) : (rest = [] ∧ splitOnce c s = (first,none) ∧ first = s) ∨
      ∃ behind, splitOnce c s = (first,some behind) ∧ behind.splitOn c = rest := by
  have hsplit := splitOn_eq_splitOnce c s
  rcases honce : splitOnce c s with ⟨a,behind⟩
  rw [honce,h] at hsplit
  obtain ⟨rfl,hrest⟩ := List.cons.inj hsplit
  cases behind with
  | none => exact .inl ⟨hrest,rfl,eq_of_splitOnce honce⟩
  | some behind => exact .inr ⟨behind,rfl,hrest.symm⟩

theorem parseProviderSource_two {s : String} {ns name : Rope}
    (h : (trim s.toList).splitOn '/' = [ns,name]) : parseProviderSource s = some (ns,name) := by
  rcases splitOnce_of_splitOn h with ⟨hnil,-⟩ | ⟨rest,honce,hrest⟩
  · cases hnil
  · rcases splitOnce_of_splitOn hrest with ⟨-,honce',-⟩ | ⟨rest',-,hrest'⟩
    · rw [parseProviderSource,honce]
      simp [honce']
    · exact absurd hrest' (List.splitOn_ne_nil '/' rest')

theorem parseProviderSource_three {s : String} {host ns name : Rope} {others : List Rope}
    (h : (trim s.toList).splitOn '/' = host :: ns :: name :: others) :
    ∃ behind, parseProviderSource s = some (ns,behind) ∧ (others = [] → behind = name) := by
  rcases splitOnce_of_splitOn h with ⟨hnil,-⟩ | ⟨rest,honce,hrest⟩
  · cases hnil
  · rcases splitOnce_of_splitOn hrest with ⟨hnil,-⟩ | ⟨rest',honce',hrest'⟩
    · cases hnil
    · refine ⟨rest',?_,fun hothers => ?_⟩
      · rw [parseProviderSource,honce]
        simp [honce']
      · subst hothers
        rcases splitOnce_of_splitOn hrest' with ⟨-,-,heq⟩ | ⟨rest'',-,hrest''⟩
        · exact heq.symm
        · exact absurd hrest'' (List.splitOn_ne_nil '/' rest'')

/-- The provider that a rule compares with is fetched. -/
theorem parseProviderSource_collected {s : String} {address : Rope × Rope}
    (h : CacheLookups.parseProviderSource s = some address) :
    parseProviderSource s = some address := by
  rw [CacheLookups.parseProviderSource] at h
  split at h
  · rename_i ns name hsplit
    split_ifs at h
    exact (parseProviderSource_two hsplit).trans h
  · rename_i host ns name hsplit
    split_ifs at h
    obtain ⟨behind,hparse,hbehind⟩ := parseProviderSource_three hsplit
    rw [hparse,hbehind rfl]
    exact h
  · cases h

theorem parseModuleSource_segments {s : String} {address : Rope × Rope × Rope}
    (h : parseModuleSource s = some address) :
    segments s = [address.1,address.2.1,address.2.2] := by
  rw [parseModuleSource] at h
  split_ifs at h
  split at h
  · rename_i ns name provider hsplit
    split_ifs at h
    cases h
    exact hsplit
  · cases h

/-- An address of a module is read in the same way, unless it names its host. -/
theorem parseModuleSource_of_parts {s : String} {address : Rope × Rope × Rope}
    (h : parseModuleSourceParts s = some address) (hlen : (segments s).length ≠ 4) :
    parseModuleSource s = some address := by
  rw [parseModuleSourceParts] at h
  rw [parseModuleSource]
  split_ifs at h ⊢ with hlocal
  split at h
  · rename_i ns name provider hsplit
    rw [hsplit]
    exact h
  · rename_i host ns name provider hsplit
    rw [segments,hsplit] at hlen
    simp at hlen
  · cases h

/-- A source is its segments, but for the white space around it. -/
theorem trim_eq_of_segments {s s' : String} (h : segments s = segments s') :
    trim s.toList = trim s'.toList := by
  have hjoin : ∀ t : Rope, ['/'].intercalate (t.splitOn '/') = t := fun t =>
    List.intercalate_splitOn '/'
  rw [← hjoin (trim s.toList),← hjoin (trim s'.toList)]
  exact congrArg _ h

/-! What the rules look up. -/

theorem validateConstraintString_key {rope : Rope} {check : Check} {key : WarmTarget}
    (h : validateConstraintString rope check = .ok (some key)) :
    check.source.map ConstraintSource.key = some key := by
  rw [validateConstraintString] at h
  split_ifs at h
  · cases h
  · obtain ⟨inner,-,h⟩ := Outcome.bind_eq_ok.mp h
    obtain ⟨parsed,-,h⟩ := Outcome.bind_eq_ok.mp h
    split_ifs at h
    · cases h
    · simpa using h

theorem placed_isSome {value : Value} {p : String × Span} (h : placed value = some p) :
    (literalString value).isSome := by
  obtain ⟨text,htext,-⟩ := Option.bind_eq_some_iff.mp h
  exact Option.isSome_iff_exists.mpr ⟨text,htext⟩

theorem requiredProvider_collected {body : Body} {entries : List (ObjectKey × Value)}
    {check : Check} (h : check ∈ requiredProvider body entries) : ∃ s address,
      s ∈ (entriesOf "source" entries).filterMap literalString ∧
        parseProviderSource s = some address ∧
        check.source = some (.provider address.1 address.2) := by
  rw [requiredProvider] at h
  split at h
  · rename_i ns name text span hsource hversion
    rw [List.mem_singleton.mp h]
    obtain ⟨s,hs,hparse⟩ := Option.bind_eq_some_iff.mp hsource
    obtain ⟨value,hvalue,htext⟩ := Option.bind_eq_some_iff.mp hs
    refine ⟨s,(ns,name),?_,parseProviderSource_collected hparse,rfl⟩
    exact List.mem_filterMap.mpr ⟨value,List.mem_of_getLast? hvalue,htext⟩
  · cases h

theorem walkTerraform_collected {body : Body} {check : Check} (h : check ∈ walkTerraform body)
    {source : ConstraintSource} (hsource : check.source = some source) :
    source.key ∈ collectTerraform body := by
  obtain ⟨item,hitem,hcheck⟩ := List.mem_flatMap.mp h
  cases item with
  | «attribute» key value =>
    simp only at hcheck
    split_ifs at hcheck with hversion
    · obtain ⟨p,hp,rfl⟩ := Option.map_eq_some_iff.mp (Option.mem_toList.mp hcheck)
      cases hsource
      exact mem_collectTerraform.mpr (.inl ⟨rfl,value,hversion ▸ hitem,placed_isSome hp⟩)
    · cases hcheck
  | block ident nested =>
    simp only at hcheck
    split_ifs at hcheck with hproviders
    · obtain ⟨a,ha,hentry⟩ := List.mem_flatMap.mp hcheck
      refine mem_collectTerraform.mpr (.inr ⟨nested,mem_blocksOf.mpr (hproviders ▸ hitem),?_⟩)
      split at hentry
      · rename_i span entries hvalue
        obtain ⟨s,address,hs,hparse,hcheck⟩ := requiredProvider_collected hentry
        cases hsource.symm.trans hcheck
        refine mem_collectRequiredProviders.mpr ⟨a,ha,span,entries,hvalue,s,hs,?_⟩
        rw [providerTarget,hparse]
        rfl
      · cases hentry
    · cases hcheck

theorem walkModule_source {body : Body} {check : Check} (h : check ∈ walkModule body)
    {source : ConstraintSource} (hsource : check.source = some source) :
    check.block = body ∧ ∃ s address, moduleSource body = some s ∧
      parseModuleSourceParts s = some address ∧
        source = .module address.1 address.2.1 address.2.2 := by
  rw [walkModule] at h
  split at h
  · cases h
  · rw [List.mem_singleton.mp h] at hsource ⊢
    obtain ⟨address,haddress,rfl⟩ := Option.map_eq_some_iff.mp hsource
    obtain ⟨s,hs,hparse⟩ := Option.bind_eq_some_iff.mp haddress
    exact ⟨rfl,s,address,hs,hparse,rfl⟩

theorem constraintChecks_cases {body : Body} {check : Check} (h : check ∈ constraintChecks body)
    {source : ConstraintSource} (hsource : check.source = some source) :
    source.key ∈ collectBodyTargets body ∨ check.block ∈ blocksOf "module" body ∧
      ∃ s address, moduleSource check.block = some s ∧ parseModuleSourceParts s = some address ∧
        source = .module address.1 address.2.1 address.2.2 := by
  rw [constraintChecks,mem_blocks] at h
  rcases h with ⟨block,hblock,hcheck⟩ | ⟨block,hblock,hcheck⟩
  · refine .inl (mem_blocks.mpr (.inl ⟨block,hblock,walkTerraform_collected hcheck hsource⟩))
  · obtain ⟨rfl,hmodule⟩ := walkModule_source hcheck hsource
    exact .inr ⟨hblock,hmodule⟩

theorem outdatedProbe_key {rope : Rope} {a : SourceAttribute} {key : WarmTarget}
    (h : outdatedProbe rope a = .ok (some key)) : isGitSource a.text ∧ repoKey a.text = some key := by
  rw [outdatedProbe] at h
  split_ifs at h with hgit
  · cases h
  · refine ⟨by simpa using hgit,?_⟩
    split at h
    · split_ifs at h
      · obtain ⟨tag,-,h⟩ := Outcome.bind_eq_ok.mp h
        cases tag with
        | none => cases h
        | some tag => simpa using h
      · simpa using h
    · cases h

theorem mismatchProbe_key {rope : Rope} {a : SourceAttribute} {key : WarmTarget}
    (h : mismatchProbe rope a = .ok (some key)) : isGitSource a.text ∧ repoKey a.text = some key := by
  rw [mismatchProbe] at h
  split_ifs at h with hgit
  · cases h
  · refine ⟨by simpa using hgit,?_⟩
    split at h
    · split_ifs at h
      · obtain ⟨tag,-,h⟩ := Outcome.bind_eq_ok.mp h
        cases tag with
        | none => cases h
        | some tag => simpa using h
      · cases h
    · cases h

theorem sourceAttributes_block {body : Body} {a : SourceAttribute} (h : a ∈ sourceAttributes body) :
    a.block ∈ blocksOf "module" body := by
  obtain ⟨block,hblock,ha⟩ := List.mem_flatMap.mp h
  obtain ⟨value,-,hvalue⟩ := List.mem_filterMap.mp ha
  split at hvalue
  · cases hvalue
    exact hblock
  · cases hvalue

/-! Everything that is looked up is fetched, and nothing for a private host, exactly
under a condition on the sources. -/

/-- One of the three rules looks the key up. -/
def LookedUp (rope : Rope) (body : Body) (key : WarmTarget) : Prop :=
  (∃ check, (check,key) ∈ constraintLookups rope body) ∨
    ∃ a, (a,key) ∈ moduleOutdatedLookups rope body ∨ (a,key) ∈ moduleRefTagMismatchLookups rope body

/-- Every provider and module that is fetched is that of a source without a private host. -/
structure NoLeak (body : Body) : Prop where
  provider : ∀ ns name, .provider ns name ∈ collectBodyTargets body → ∃ s ∈ providerSources body,
    parseProviderSource s = some (ns,name) ∧ PublicHost (providerHost s)
  module : ∀ ns name system, .module ns name system ∈ collectBodyTargets body →
    ∃ block ∈ blocksOf "module" body, ∃ s, lastSource block = some s ∧
      parseModuleSource s = some (ns,name,system) ∧ PublicHost (moduleHost s)

structure Warmable (rope : Rope) (body : Body) : Prop where
  /-- An address with its host, or not in the last `source`, is fetched for some
  source of three parts. -/
  addresses : ∀ check ns name system,
    (check,.module ns name system) ∈ constraintLookups rope body →
      ∀ s, moduleSource check.block = some s →
        (segments s).length = 4 ∨ lastSource check.block ≠ some s →
          ∃ block ∈ blocksOf "module" body, ∃ s', lastSource block = some s' ∧
            parseModuleSource s' = some (ns,name,system)
  /-- A repository that looks like an address of three parts, or that is not in the
  last `source`, is fetched for some source that does not. -/
  repositories : ∀ a url, (a,.gitRepo url) ∈ moduleOutdatedLookups rope body ∨
      (a,.gitRepo url) ∈ moduleRefTagMismatchLookups rope body →
    (parseModuleSource a.text).isSome ∨ lastSource a.block ≠ some a.text →
      ∃ block ∈ blocksOf "module" body, ∃ s', lastSource block = some s' ∧
        parseModuleSource s' = none ∧ isGitSource s' ∧ normalizeGitUrl s' = some url
  /-- No repository looks like an address of three parts. -/
  hosts : ∀ block ∈ blocksOf "module" body, ∀ s, lastSource block = some s →
    (parseModuleSource s).isSome → isGitSource s → PublicHost (segments s).head?
  /-- A provider with a private host has the namesake of a public one. -/
  namesakes : ∀ s ∈ providerSources body, ¬PublicHost (providerHost s) →
    ∃ s' ∈ providerSources body, PublicHost (providerHost s') ∧
      parseProviderSource s' = parseProviderSource s

theorem Warmable.constraint {rope : Rope} {body : Body} (h : Warmable rope body) {check : Check}
    {key : WarmTarget} (hlookup : (check,key) ∈ constraintLookups rope body) :
    key ∈ collectBodyTargets body := by
  obtain ⟨hcheck,hprobe⟩ := mem_lookups hlookup
  obtain ⟨source,hsource,rfl⟩ := Option.map_eq_some_iff.mp (validateConstraintString_key hprobe)
  rcases constraintChecks_cases hcheck hsource with hkey | ⟨hblock,s,address,hs,hparse,rfl⟩
  · exact hkey
  · by_cases hlast : (segments s).length = 4 ∨ lastSource check.block ≠ some s
    · exact mem_collect_module.mpr (h.addresses check _ _ _ hlookup s hs hlast)
    · rw [not_or,not_not] at hlast
      exact mem_collect_module.mpr
        ⟨check.block,hblock,s,hlast.2,parseModuleSource_of_parts hparse hlast.1⟩

theorem Warmable.repository {rope : Rope} {body : Body} (h : Warmable rope body)
    {a : SourceAttribute} {key : WarmTarget} (hlookup : (a,key) ∈ moduleOutdatedLookups rope body ∨
      (a,key) ∈ moduleRefTagMismatchLookups rope body) : key ∈ collectBodyTargets body := by
  have hprobed : a ∈ sourceAttributes body ∧ isGitSource a.text ∧ repoKey a.text = some key := by
    rcases hlookup with hlookup | hlookup
    · obtain ⟨ha,hprobe⟩ := mem_lookups hlookup
      exact ⟨ha,outdatedProbe_key hprobe⟩
    · obtain ⟨ha,hprobe⟩ := mem_lookups hlookup
      exact ⟨ha,mismatchProbe_key hprobe⟩
  obtain ⟨ha,hgit,hkey⟩ := hprobed
  obtain ⟨url,hurl,rfl⟩ := Option.map_eq_some_iff.mp hkey
  by_cases hlast : (parseModuleSource a.text).isSome ∨ lastSource a.block ≠ some a.text
  · exact mem_collect_repo.mpr (h.repositories a url hlookup hlast)
  · rw [not_or,not_not,Option.not_isSome_iff_eq_none] at hlast
    exact mem_collect_repo.mpr
      ⟨a.block,sourceAttributes_block ha,a.text,hlast.2,hlast.1,hgit,hurl⟩

theorem Warmable.noLeak {rope : Rope} {body : Body} (h : Warmable rope body) : NoLeak body where
  provider := by
    intro ns name hkey
    obtain ⟨s,hs,hparse⟩ := mem_collect_provider.mp hkey
    by_cases hhost : PublicHost (providerHost s)
    · exact ⟨s,hs,hparse,hhost⟩
    · obtain ⟨s',hs',hhost',hsame⟩ := h.namesakes s hs hhost
      exact ⟨s',hs',hsame.trans hparse,hhost'⟩
  module := by
    intro ns name system hkey
    obtain ⟨block,hblock,s,hs,hparse⟩ := mem_collect_module.mp hkey
    refine ⟨block,hblock,s,hs,hparse,?_⟩
    rw [moduleHost,parseModuleSource_segments hparse]
    split_ifs with hcond
    · have hgit : isGitSource s := hcond.resolve_right (by simp)
      have hhost := h.hosts block hblock s hs (by simp [hparse]) hgit
      rwa [parseModuleSource_segments hparse] at hhost
    · simp [PublicHost]

/-- A module that was fetched for a public source is named by no private one. -/
theorem NoLeak.hosts {body : Body} (h : NoLeak body) {block : Body}
    (hblock : block ∈ blocksOf "module" body) {s : String} (hs : lastSource block = some s)
    (haddress : (parseModuleSource s).isSome) (hgit : isGitSource s) :
    PublicHost (segments s).head? := by
  obtain ⟨address,hparse⟩ := Option.isSome_iff_exists.mp haddress
  have hkey : .module address.1 address.2.1 address.2.2 ∈ collectBodyTargets body :=
    mem_collect_module.mpr ⟨block,hblock,s,hs,hparse⟩
  obtain ⟨block',-,s',-,hparse',hhost⟩ := h.module _ _ _ hkey
  have hsegments : segments s' = segments s := by
    rw [parseModuleSource_segments hparse,parseModuleSource_segments hparse']
  have hgit' : isGitSource s' := by
    rw [isGitSource,trim_eq_of_segments hsegments]
    exact hgit
  rw [moduleHost,if_pos (.inl hgit'),hsegments] at hhost
  exact hhost

theorem NoLeak.namesakes {body : Body} (h : NoLeak body) {s : String}
    (hs : s ∈ providerSources body) (hhost : ¬PublicHost (providerHost s)) :
    ∃ s' ∈ providerSources body, PublicHost (providerHost s') ∧
      parseProviderSource s' = parseProviderSource s := by
  rw [providerHost] at hhost
  split at hhost
  · rename_i host ns name others hsplit
    obtain ⟨behind,hparse,-⟩ := parseProviderSource_three hsplit
    obtain ⟨s',hs',hparse',hhost'⟩ := h.provider ns behind (mem_collect_provider.mpr ⟨s,hs,hparse⟩)
    exact ⟨s',hs',hhost',hparse'.trans hparse.symm⟩
  · simp [PublicHost] at hhost

/-- What the rules look up is fetched ahead, and nothing is fetched for a private
host, exactly if the two readers of sources agree on the body. -/
theorem warmed_iff (rope : Rope) (body : Body) :
    ((∀ key, LookedUp rope body key → key ∈ collectBodyTargets body) ∧ NoLeak body) ↔
      Warmable rope body := by
  constructor
  · rintro ⟨hwarm,hleak⟩
    refine ⟨?_,?_,fun block hblock s hs => hleak.hosts hblock hs,fun s hs => hleak.namesakes hs⟩
    · intro check ns name system hlookup _ _ _
      exact mem_collect_module.mp (hwarm _ (.inl ⟨check,hlookup⟩))
    · intro a url hlookup _
      exact mem_collect_repo.mp (hwarm _ (.inr ⟨a,hlookup⟩))
  · intro h
    refine ⟨?_,h.noLeak⟩
    rintro key (⟨check,hlookup⟩ | ⟨a,hlookup⟩)
    · exact h.constraint hlookup
    · exact h.repository hlookup

/-- A provider of a private registry. -/
def privateProvider : Body := [.block "terraform" [.block "required_providers" [.attribute "internal"
  (.object none [(.ident "source",.string none "app.terraform.io/acme/internal")])]]]

/-- Its name is sent to the public registries. -/
theorem privateProvider_leaks :
    ¬((∀ key, LookedUp [] privateProvider key → key ∈ collectBodyTargets privateProvider) ∧
      NoLeak privateProvider) := by
  rintro ⟨-,hleak⟩
  have hkey : WarmTarget.provider "acme".toList "internal".toList ∈
      collectBodyTargets privateProvider := by decide +kernel
  obtain ⟨s,hs,-,hhost⟩ := hleak.provider _ _ hkey
  have hsources : providerSources privateProvider = ["app.terraform.io/acme/internal"] := rfl
  rw [hsources,List.mem_singleton] at hs
  subst hs
  have hprivate : providerHost "app.terraform.io/acme/internal" =
      some "app.terraform.io".toList := by decide +kernel
  have hpublic := hhost _ hprivate
  revert hpublic
  decide +kernel

end Prefetch
end CacheLookups
end TerraformLs
